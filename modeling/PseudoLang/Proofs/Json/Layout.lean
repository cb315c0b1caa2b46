import PseudoLang.Proofs.Json.Reading

/-!
The layout of JSON texts. A value is written as the texts of its parts, with white space between
them that depends on the form: none in the compact form, line breaks and indentation in the pretty
one (`toList_render`).
-/

namespace PseudoLang.Json

/-! ## Parts -/

theorem sizeOf_item_lt {item : Json} {items : List Json} (h : item ∈ items) :
    sizeOf item < sizeOf (array items) := by
  have := List.sizeOf_lt_of_mem h
  simp only [array.sizeOf_spec]
  omega

theorem sizeOf_value_lt {member : String × Json} {members : List (String × Json)}
    (h : member ∈ members) : sizeOf member.2 < sizeOf (object members) := by
  have := List.sizeOf_lt_of_mem h
  obtain ⟨key, value⟩ := member
  simp only [object.sizeOf_spec, Prod.mk.sizeOf_spec] at this ⊢
  omega

/-- What holds of an array if it holds of its items, and of an object if it holds of its values,
holds of every value. -/
theorem induction_parts {P : Json → Prop} (null : P null) (bool : ∀ value, P (bool value))
    (integer : ∀ n, P (integer n)) (float : ∀ x, P (float x)) (string : ∀ s, P (string s))
    (array : ∀ items, (∀ item ∈ items, P item) → P (array items))
    (object : ∀ members, (∀ member ∈ members, P member.2) → P (object members)) :
    ∀ value, P value
  | .null => null
  | .bool value => bool value
  | .integer n => integer n
  | .float x => float x
  | .string s => string s
  | .array items => array items fun item _ =>
      induction_parts null bool integer float string array object item
  | .object members => object members fun member _ =>
      induction_parts null bool integer float string array object member.2
decreasing_by
  · exact sizeOf_item_lt ‹_›
  · exact sizeOf_value_lt ‹_›

/-! ## Layouts -/

/-- The white space that a form puts between the parts of a value: before every item and closing
bracket at a level of nesting, and after the colon of a member. -/
structure Spacing where
  gap : Nat → List Char
  colon : List Char
  isSpace_gap : ∀ level, ∀ c ∈ gap level, isSpace c = true
  isSpace_colon : ∀ c ∈ colon, isSpace c = true

namespace Spacing

/-- No white space at all. -/
def compact : Spacing where
  gap _ := []
  colon := []
  isSpace_gap := by simp
  isSpace_colon := by simp

/-- An item to a line. -/
def pretty : Spacing where
  gap level := newLine level []
  colon := [' ']
  isSpace_gap level c member := by
    simp [newLine] at member
    obtain rfl | ⟨_, rfl⟩ := member <;> decide
  isSpace_colon := by simp [isSpace]

end Spacing

/-- Texts with commas between them. -/
def separate (gap : List Char) : List (List Char) → List Char
  | [] => []
  | [text] => text
  | text :: texts => text ++ ',' :: (gap ++ separate gap texts)

theorem separate_cons {gap text : List Char} {texts : List (List Char)} (h : texts ≠ []) :
    separate gap (text :: texts) = text ++ ',' :: (gap ++ separate gap texts) := by
  cases texts with
  | nil => contradiction
  | cons next texts => rfl

theorem length_le_separate (gap : List Char) {text : List Char} {texts : List (List Char)}
    (h : text ∈ texts) : text.length ≤ (separate gap texts).length := by
  induction texts with
  | nil => simp at h
  | cons first texts ih =>
    by_cases last : texts = []
    · obtain rfl : text = first := by simpa [last] using h
      simp [last, separate]
    · rw [separate_cons last]
      obtain rfl | member := List.mem_cons.mp h
      · simp
      · have := ih member
        simp
        omega

theorem count_le_separate (gap : List Char) (texts : List (List Char)) :
    texts.length ≤ (separate gap texts).length + 1 := by
  induction texts with
  | nil => simp
  | cons first texts ih =>
    by_cases last : texts = []
    · simp [last]
    · rw [separate_cons last]
      simp only [List.length_append, List.length_cons]
      omega

/-- Texts in brackets. -/
def enclose (s : Spacing) (level : Nat) (opening close : Char) (texts : List (List Char)) :
    List Char :=
  if texts = [] then [opening, close]
  else opening :: (s.gap (level + 1) ++
    (separate (s.gap (level + 1)) texts ++ (s.gap level ++ [close])))

theorem length_lt_enclose (s : Spacing) (level : Nat) (opening close : Char) {text : List Char}
    {texts : List (List Char)} (h : text ∈ texts) :
    text.length < (enclose s level opening close texts).length := by
  have some : texts ≠ [] := List.ne_nil_of_mem h
  have := length_le_separate (s.gap (level + 1)) h
  rw [enclose, if_neg some]
  simp only [List.length_cons, List.length_append]
  omega

/-- A key, a colon and the text of a value. -/
def memberText (s : Spacing) (key : String) (value : List Char) : List Char :=
  quote key ++ ':' :: (s.colon ++ value)

theorem length_le_memberText (s : Spacing) (key : String) (value : List Char) :
    value.length ≤ (memberText s key value).length := by
  simp only [memberText, List.length_append, List.length_cons]
  omega

/-- The text of a value at a level of nesting. -/
def text (s : Spacing) (level : Nat) : Json → List Char
  | null => "null".toList
  | bool value => if value then "true".toList else "false".toList
  | integer n => Number.integerDigits n
  | float x => floatText x
  | string s => quote s
  | array items => enclose s level '[' ']' (items.map (text s (level + 1)))
  | object members => enclose s level '{' '}'
      (members.map fun member => memberText s member.1 (text s (level + 1) member.2))
termination_by value => sizeOf value
decreasing_by
  · exact sizeOf_item_lt ‹_›
  · exact sizeOf_value_lt ‹_›

/-! ## The two forms -/

theorem writeItems_eq {items : List Json} {level : Nat}
    (each : ∀ item ∈ items, ∀ rest, writeCompact item rest = text .compact level item ++ rest)
    (rest : List Char) :
    writeItems items rest = separate [] (items.map (text .compact level)) ++ rest := by
  induction items with
  | nil => simp [writeItems, separate]
  | cons item items ih =>
    have first := each item (.head _)
    cases items with
    | nil => simp [writeItems, separate, first]
    | cons next items =>
      have others := ih fun item member => each item (.tail _ member)
      simp [writeItems, separate, first, others]

theorem writeMembers_eq {members : List (String × Json)} {level : Nat}
    (each : ∀ member ∈ members, ∀ rest,
      writeCompact member.2 rest = text .compact level member.2 ++ rest) (rest : List Char) :
    writeMembers members rest = separate []
      (members.map fun member => memberText .compact member.1 (text .compact level member.2)) ++
        rest := by
  induction members with
  | nil => simp [writeMembers, separate]
  | cons member members ih =>
    have first := each member (.head _)
    cases members with
    | nil => simp [writeMembers, separate, memberText, Spacing.compact, first]
    | cons next members =>
      have others := ih fun member found => each member (.tail _ found)
      simp [writeMembers, separate, memberText, Spacing.compact, first, others]

theorem enclose_compact (level : Nat) (opening close : Char) (texts : List (List Char))
    (rest : List Char) :
    enclose .compact level opening close texts ++ rest =
      opening :: (separate [] texts ++ close :: rest) := by
  unfold enclose
  split
  · rename_i none
    simp [none, separate]
  · simp [Spacing.compact]

/-- The compact form is the layout without white space. -/
theorem writeCompact_eq (value : Json) :
    ∀ level rest, writeCompact value rest = text .compact level value ++ rest := by
  induction value using induction_parts with
  | null | integer | float | string => simp [writeCompact, text]
  | bool value => cases value <;> simp [writeCompact, text]
  | array items ih =>
    intro level rest
    have each := fun item member => ih item member (level + 1)
    rw [writeCompact, writeItems_eq each, text, enclose_compact]
  | object members ih =>
    intro level rest
    have each := fun member found => ih member found (level + 1)
    rw [writeCompact, writeMembers_eq each, text, enclose_compact]

theorem newLine_eq (level : Nat) (rest : List Char) :
    newLine level rest = Spacing.pretty.gap level ++ rest := by
  simp [newLine, Spacing.pretty]

theorem writePrettyItems_eq {items : List Json} {level : Nat}
    (each : ∀ item ∈ items, ∀ rest, writePretty level item rest = text .pretty level item ++ rest)
    (rest : List Char) :
    writePrettyItems level items rest =
      separate (Spacing.pretty.gap level) (items.map (text .pretty level)) ++ rest := by
  induction items with
  | nil => simp [writePrettyItems, separate]
  | cons item items ih =>
    have first := each item (.head _)
    cases items with
    | nil => simp [writePrettyItems, separate, first]
    | cons next items =>
      have others := ih fun item member => each item (.tail _ member)
      simp [writePrettyItems, separate, newLine_eq, first, others]

theorem writePrettyMembers_eq {members : List (String × Json)} {level : Nat}
    (each : ∀ member ∈ members, ∀ rest,
      writePretty level member.2 rest = text .pretty level member.2 ++ rest) (rest : List Char) :
    writePrettyMembers level members rest = separate (Spacing.pretty.gap level)
      (members.map fun member => memberText .pretty member.1 (text .pretty level member.2)) ++
        rest := by
  have colon : Spacing.pretty.colon = [' '] := rfl
  induction members with
  | nil => simp [writePrettyMembers, separate]
  | cons member members ih =>
    have first := each member (.head _)
    cases members with
    | nil => simp [writePrettyMembers, separate, memberText, colon, first]
    | cons next members =>
      have others := ih fun member found => each member (.tail _ found)
      simp [writePrettyMembers, separate, memberText, colon, newLine_eq, first, others]

/-- The pretty form is the layout with an item to a line. -/
theorem writePretty_eq (value : Json) :
    ∀ level rest, writePretty level value rest = text .pretty level value ++ rest := by
  induction value using induction_parts with
  | null | integer | float | string => simp [writePretty, text]
  | bool value => cases value <;> simp [writePretty, text]
  | array items ih =>
    intro level rest
    cases items with
    | nil => simp [writePretty, text, enclose]
    | cons item items =>
      have each := fun item member => ih item member (level + 1)
      rw [writePretty, writePrettyItems_eq each, text, enclose, if_neg (by simp)]
      · simp [newLine_eq]
      · simp
  | object members ih =>
    intro level rest
    cases members with
    | nil => simp [writePretty, text, enclose]
    | cons member members =>
      have each := fun member found => ih member found (level + 1)
      rw [writePretty, writePrettyMembers_eq each, text, enclose, if_neg (by simp)]
      · simp [newLine_eq]
      · simp

/-- The white space of a form. -/
def spacing (compactly : Bool) : Spacing := if compactly then .compact else .pretty

theorem toList_render (compactly : Bool) (value : Json) :
    (value.render compactly).toList = text (spacing compactly) 0 value := by
  cases compactly with
  | true => simp [render, compact, writeCompact_eq value 0, spacing]
  | false => simp [render, pretty, writePretty_eq value 0, spacing]

end PseudoLang.Json
