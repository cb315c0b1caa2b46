import Mathlib.Data.List.Forall2
import PseudoLang.Proofs.Json.Layout
import PseudoLang.Proofs.Json.Scalars

/-!
Reading what has been written. Every reader takes the text of a value wherever the text stands
(`Reads`): after white space, and before anything that no name and no number can go on into. So
both forms of a value read back as what the value denotes (`read?_render`).
-/

namespace PseudoLang.Json

/-! ## White space -/

/-- Only white space. -/
def Blank (cs : List Char) : Prop := ∀ c ∈ cs, isSpace c = true

/-- No name or number goes on into a text. -/
def Ends (rest : List Char) : Prop := ∀ c ∈ rest.head?, isScalarPart c = false

theorem blank_nil : Blank [] := by simp [Blank]

theorem not_isScalarPart_of_isSpace {c : Char} (h : isSpace c = true) : isScalarPart c = false := by
  simp only [isSpace, Bool.or_eq_true, beq_iff_eq] at h
  obtain ((rfl | rfl) | rfl) | rfl := h <;> decide

theorem Ends.append {space rest : List Char} (blank : Blank space) (h : Ends rest) :
    Ends (space ++ rest) := by
  cases space with
  | nil => exact h
  | cons c space =>
    intro c found
    obtain rfl := Option.some.inj found
    exact not_isScalarPart_of_isSpace (blank _ (.head _))

theorem ends_cons {c : Char} (h : isScalarPart c = false) (rest : List Char) :
    Ends (c :: rest) := by
  simpa [Ends] using h

theorem skipSpace_append {space : List Char} (blank : Blank space) {c : Char}
    (h : isSpace c = false) (rest : List Char) : skipSpace (space ++ c :: rest) = c :: rest := by
  rw [skipSpace, List.dropWhile_append_of_pos blank, List.dropWhile_cons_of_neg (by simp [h])]

/-! ## Sequences -/

section Sequences

variable {β : Type} {element : Read β}

/-- A reader takes a text as a value wherever the text stands. -/
def Reads (element : Read β) (text : List Char) (value : β) : Prop :=
  ∀ space rest, Blank space → Ends rest → element (space ++ (text ++ rest)) = some (value, rest)

/-- A character that can close a sequence. -/
structure Closing (close : Char) : Prop where
  space : isSpace close = false
  part : isScalarPart close = false
  comma : close ≠ ','

theorem readSeparated_separate {close : Char} (hc : Closing close) {gap last : List Char}
    (blank : Blank gap) (final : Blank last) {texts : List (List Char)} {values : List β}
    (each : List.Forall₂ (Reads element) texts values) (rest : List Char) (some : texts ≠ [])
    (space : List Char) (count : Nat) (before : Blank space) (enough : texts.length ≤ count) :
    readSeparated element close count
      (space ++ (separate gap texts ++ (last ++ close :: rest))) = .some (values, rest) := by
  induction each generalizing space count with
  | nil => contradiction
  | @cons text value texts values first others ih =>
    obtain ⟨count, rfl⟩ : ∃ n, count = n + 1 :=
      Nat.exists_eq_succ_of_ne_zero (by simp at enough; omega)
    by_cases none : texts = []
    · subst none
      cases others
      have ends : Ends (last ++ close :: rest) := Ends.append final (ends_cons hc.part rest)
      have after : skipSpace (last ++ close :: rest) = close :: rest :=
        skipSpace_append final hc.space rest
      simp [separate, readSeparated, first space _ before ends, after, hc.comma]
    · have ends (rest : List Char) : Ends (',' :: rest) := ends_cons (by decide) rest
      have after (rest : List Char) : skipSpace (',' :: rest) = ',' :: rest :=
        skipSpace_append blank_nil (by decide) rest
      have next := ih none gap count blank (by simpa using enough)
      rw [separate_cons none]
      simp only [List.append_assoc, List.cons_append]
      simp [readSeparated, first space _ before (ends _), after, next]

/-- A text that begins neither with white space nor with a bracket that closes a value. -/
def Opens (text : List Char) : Prop :=
  ∃ c cs, text = c :: cs ∧ isSpace c = false ∧ c ≠ ']' ∧ c ≠ '}'

theorem readEnclosed_enclose {close : Char} (hc : close = ']' ∨ close = '}') (s : Spacing)
    (level : Nat) {texts : List (List Char)} {values : List β} (opens : ∀ text ∈ texts, Opens text)
    (each : List.Forall₂ (Reads element) texts values) (opening : Char) (rest : List Char) :
    ∃ inner, enclose s level opening close texts ++ rest = opening :: inner ∧
      readEnclosed element close inner = some (values, rest) := by
  have closing : Closing close := by
    obtain rfl | rfl := hc <;> exact ⟨by decide, by decide, by decide⟩
  unfold enclose
  cases each with
  | nil =>
    refine ⟨close :: rest, rfl, ?_⟩
    have start := skipSpace_append blank_nil closing.space rest
    simp at start
    simp [readEnclosed, start]
  | @cons text value texts values first others =>
    rw [if_neg (by simp)]
    refine ⟨s.gap (level + 1) ++ (separate (s.gap (level + 1)) (text :: texts) ++
      (s.gap level ++ close :: rest)), by simp, ?_⟩
    obtain ⟨c, cs, rfl, space, other⟩ := opens text (.head _)
    have start : ∃ after, skipSpace (s.gap (level + 1) ++
        (separate (s.gap (level + 1)) ((c :: cs) :: texts) ++ (s.gap level ++ close :: rest))) =
          c :: after := by
      cases texts with
      | nil => exact ⟨_, skipSpace_append (s.isSpace_gap _) space _⟩
      | cons => exact ⟨_, skipSpace_append (s.isSpace_gap _) space _⟩
    obtain ⟨after, start⟩ := start
    have other : c ≠ close := by
      obtain rfl | rfl := hc
      · exact other.1
      · exact other.2
    have enough := count_le_separate (s.gap (level + 1)) ((c :: cs) :: texts)
    rw [readEnclosed, start]
    dsimp only
    rw [if_neg other]
    refine readSeparated_separate closing (s.isSpace_gap _) (s.isSpace_gap _)
      (.cons first others) rest (by simp) _ _ (s.isSpace_gap _) ?_
    simp only [List.length_append, List.length_cons] at enough ⊢
    omega

end Sequences

/-! ## Values -/

/-- The value that the texts of a value denote. It differs from the value only in floating-point
numbers. -/
def denoted : Json → Json
  | null => null
  | bool value => bool value
  | integer n => integer n
  | float x => ofFloat x
  | string s => string s
  | array items => array (items.map denoted)
  | object members => object (members.map fun member => (member.1, denoted member.2))
termination_by value => sizeOf value
decreasing_by
  · exact sizeOf_item_lt ‹_›
  · exact sizeOf_value_lt ‹_›

theorem Scalar.exists_part {text : List Char} {value : Json} (h : Scalar text value) :
    ∃ c cs, text = c :: cs ∧ isScalarPart c = true := by
  cases text with
  | nil =>
    have none := h.value
    simp [scalar?, unsigned?] at none
  | cons c cs => exact ⟨c, cs, rfl, h.parts c (.head _)⟩

/-- A name or number is neither white space nor punctuation. -/
theorem ne_of_isScalarPart {c other : Char} (h : isScalarPart c = true)
    (punctuation : isScalarPart other = false) : c ≠ other := by
  rintro rfl
  simp [h] at punctuation

theorem isSpace_of_isScalarPart {c : Char} (h : isScalarPart c = true) : isSpace c = false := by
  by_contra space
  rw [Bool.not_eq_false] at space
  simp [not_isScalarPart_of_isSpace space] at h

theorem Scalar.opens {text : List Char} {value : Json} (h : Scalar text value) : Opens text := by
  obtain ⟨c, cs, rfl, part⟩ := h.exists_part
  exact ⟨c, cs, rfl, isSpace_of_isScalarPart part, ne_of_isScalarPart part (by decide),
    ne_of_isScalarPart part (by decide)⟩

theorem opens_quote (s : String) : Opens (quote s) := ⟨'"', _, rfl, by decide, by decide, by decide⟩

theorem opens_text (s : Spacing) (level : Nat) (value : Json) : Opens (text s level value) := by
  have bracket {opening close : Char} {texts : List (List Char)}
      (h : isSpace opening = false ∧ opening ≠ ']' ∧ opening ≠ '}') :
      Opens (enclose s level opening close texts) := by
    unfold enclose
    split
    · exact ⟨opening, _, rfl, h⟩
    · exact ⟨opening, _, rfl, h⟩
  cases value with
  | null => rw [text]; exact scalar_null.opens
  | bool value => rw [text]; exact (scalar_bool value).opens
  | integer n => rw [text]; exact (scalar_integer n).opens
  | float x => rw [text]; exact (scalar_float x).opens
  | string s => rw [text]; exact opens_quote s
  | array items => rw [text]; exact bracket (by decide)
  | object members => rw [text]; exact bracket (by decide)

/-- A name or a number reads as its value. -/
theorem reads_scalar {text : List Char} {value : Json} (h : Scalar text value) (room : Nat) :
    Reads (readWithin (room + 1)) text value := by
  intro space rest blank ends
  obtain ⟨taken, left⟩ := Number.span_append h.parts ends
  obtain ⟨c, cs, rfl, part⟩ := h.exists_part
  have skip : skipSpace (space ++ (c :: cs ++ rest)) = c :: cs ++ rest :=
    skipSpace_append blank (isSpace_of_isScalarPart part) (cs ++ rest)
  have other {mark : Char} {after : List Char} (same : c :: cs ++ rest = mark :: after)
      (punctuation : isScalarPart mark = false) : False :=
    ne_of_isScalarPart part punctuation (List.cons.inj same).1
  rw [readWithin, skip]
  split
  · exact (other ‹_› (by decide)).elim
  · exact (other ‹_› (by decide)).elim
  · exact (other ‹_› (by decide)).elim
  · rw [taken, left, h.value]
    rfl

theorem reads_quote (s : String) (room : Nat) :
    Reads (readWithin (room + 1)) (quote s) (string s) := by
  intro space rest blank ends
  obtain ⟨inner, same, read⟩ := readString_quote s rest
  rw [same, readWithin, skipSpace_append blank (by decide)]
  simp [read]

theorem reads_member {value : Read Json} (s : Spacing) (key : String) {text : List Char}
    {found : Json} (h : Reads value text found) :
    Reads (readMember value) (memberText s key text) (key, found) := by
  intro space rest blank ends
  obtain ⟨inner, same, read⟩ := readString_quote key (':' :: (s.colon ++ (text ++ rest)))
  have colon := skipSpace_append blank_nil (c := ':') (by decide) (s.colon ++ (text ++ rest))
  rw [List.nil_append] at colon
  have shape : memberText s key text ++ rest = '"' :: inner := by
    simpa [memberText] using same
  rw [shape, readMember, skipSpace_append blank (by decide)]
  simp [read, colon, h s.colon rest s.isSpace_colon ends]

theorem reads_array {room : Nat} {s : Spacing} {level : Nat} {texts : List (List Char)}
    {items : List Json} (opens : ∀ text ∈ texts, Opens text)
    (each : List.Forall₂ (Reads (readWithin room)) texts items) :
    Reads (readWithin (room + 1)) (enclose s level '[' ']' texts) (array items) := by
  intro space rest blank ends
  obtain ⟨inner, same, read⟩ := readEnclosed_enclose (.inl rfl) s level opens each '[' rest
  rw [same, readWithin, skipSpace_append blank (by decide)]
  simp [read]

theorem reads_object {room : Nat} {s : Spacing} {level : Nat} {texts : List (List Char)}
    {members : List (String × Json)} (opens : ∀ text ∈ texts, Opens text)
    (each : List.Forall₂ (Reads (readMember (readWithin room))) texts members) :
    Reads (readWithin (room + 1)) (enclose s level '{' '}' texts) (object members) := by
  intro space rest blank ends
  obtain ⟨inner, same, read⟩ := readEnclosed_enclose (.inr rfl) s level opens each '{' rest
  rw [same, readWithin, skipSpace_append blank (by decide)]
  simp [read]

/-- The text of a value reads as what it denotes, if there is room for as many values inside each
other as it has characters. -/
theorem reads_text (s : Spacing) (value : Json) :
    ∀ level room, (text s level value).length ≤ room →
      Reads (readWithin room) (text s level value) value.denoted := by
  have room_ne_zero {value : Json} {level room : Nat}
      (fits : (text s level value).length ≤ room) : ∃ n, room = n + 1 := by
    obtain ⟨c, cs, some, _⟩ := opens_text s level value
    refine Nat.exists_eq_succ_of_ne_zero ?_
    rintro rfl
    simp [some] at fits
  induction value using induction_parts with
  | null =>
    intro level room fits
    obtain ⟨room, rfl⟩ := room_ne_zero fits
    rw [text, denoted]
    exact reads_scalar scalar_null room
  | bool value =>
    intro level room fits
    obtain ⟨room, rfl⟩ := room_ne_zero fits
    rw [text, denoted]
    exact reads_scalar (scalar_bool value) room
  | integer n =>
    intro level room fits
    obtain ⟨room, rfl⟩ := room_ne_zero fits
    rw [text, denoted]
    exact reads_scalar (scalar_integer n) room
  | float x =>
    intro level room fits
    obtain ⟨room, rfl⟩ := room_ne_zero fits
    rw [text, denoted]
    exact reads_scalar (scalar_float x) room
  | string s =>
    intro level room fits
    obtain ⟨room, rfl⟩ := room_ne_zero fits
    rw [text, denoted]
    exact reads_quote s room
  | array items ih =>
    intro level room fits
    obtain ⟨room, rfl⟩ := room_ne_zero fits
    rw [text] at fits ⊢
    rw [denoted]
    refine reads_array ?_ ?_
    · intro text member
      obtain ⟨item, _, rfl⟩ := List.mem_map.mp member
      exact opens_text s (level + 1) item
    · rw [List.forall₂_map_left_iff, List.forall₂_map_right_iff, List.forall₂_same]
      intro item member
      refine ih item member (level + 1) room ?_
      have := length_lt_enclose s level '[' ']'
        (List.mem_map_of_mem (f := text s (level + 1)) member)
      omega
  | object members ih =>
    intro level room fits
    obtain ⟨room, rfl⟩ := room_ne_zero fits
    rw [text] at fits ⊢
    rw [denoted]
    refine reads_object ?_ ?_
    · intro text found
      obtain ⟨member, _, rfl⟩ := List.mem_map.mp found
      obtain ⟨c, cs, same, opens⟩ := opens_quote member.1
      exact ⟨c, _, by rw [memberText, same]; rfl, opens⟩
    · rw [List.forall₂_map_left_iff, List.forall₂_map_right_iff, List.forall₂_same]
      intro member found
      refine reads_member s member.1 (ih member found (level + 1) room ?_)
      have := length_lt_enclose s level '{' '}'
        (List.mem_map_of_mem (f := fun member =>
          memberText s member.1 (text s (level + 1) member.2)) found)
      have := length_le_memberText s member.1 (text s (level + 1) member.2)
      omega

/-- Either text of a value reads back as what the value denotes. -/
theorem read?_render (compactly : Bool) (value : Json) :
    read? (value.render compactly) = some value.denoted := by
  have read := reads_text (spacing compactly) value 0 _ (Nat.le_refl _) [] [] blank_nil
    (by simp [Ends])
  rw [List.nil_append, List.append_nil] at read
  rw [read?, toList_render, read]
  rfl

end PseudoLang.Json
