import PseudoLang.Proofs.Token.Truncation

/-!
Lexemes are the longest possible. `IsLexeme` says which texts can be a lexeme, whatever the order
in which they are looked for. A scan finds one of them, and no longer one stands in its place
(`longest_of_scan`), so that no lexeme ends before a character that would go on with it
(`uncut_of_scan`).
-/

namespace PseudoLang

open Text (isDigit)

/-! ## The texts of lexemes -/

/-- Digits with or without a point: at the end of them, between them or before them. -/
inductive IsNumber : List Char → Prop
  | whole {whole : List Char} : whole ≠ [] → (∀ c ∈ whole, isDigit c = true) → IsNumber whole
  | pointed {whole decimals : List Char} : (whole ≠ [] ∨ decimals ≠ []) →
    (∀ c ∈ whole, isDigit c = true) → (∀ c ∈ decimals, isDigit c = true) →
    IsNumber (whole ++ '.' :: decimals)

/-- The rest of a line from two slashes on, line breaks, or blanks. -/
inductive IsSkipped : List Char → Prop
  | comment {cs : List Char} : '\n' ∉ cs → IsSkipped ('/' :: '/' :: cs)
  | lineBreak {cs : List Char} : cs ≠ [] → (∀ c ∈ cs, Lexeme.isLineBreak c = true) → IsSkipped cs
  | blank {cs : List Char} : cs ≠ [] → (∀ c ∈ cs, Lexeme.isBlank c = true) → IsSkipped cs

/-- The texts that can be a lexeme. -/
inductive IsLexeme : List Char → Prop
  | skipped {cs : List Char} : IsSkipped cs → IsLexeme cs
  | word {cs : List Char} : IsWord (String.ofList cs) → IsLexeme cs
  | number {cs : List Char} : IsNumber cs → IsLexeme cs
  | literal {cs : List Char} {literal : Lexeme.Literal} :
    Lexeme.readLiteral [] ['"'] cs = .ok literal → literal.rest = [] → IsLexeme ('"' :: cs)
  | punctuation {text : List Char} {kind : Token.Kind} :
    (text, kind) ∈ Lexeme.punctuation → IsLexeme text

/-- A lexeme, and no longer one stands where it does. -/
structure Longest (text after : List Char) : Prop where
  lexeme : IsLexeme text
  longest : ∀ other, IsLexeme other → other <+: text ++ after → other.length ≤ text.length

/-- A lexeme does not end before a character that would go on with it. -/
structure Uncut (text after : List Char) : Prop where
  word : IsWord (String.ofList text) → ∀ c ∈ after.head?, Lexeme.isWordPart c = false
  number : IsNumber text → ∀ c ∈ after.head?, isDigit c = false ∧ c ≠ '.'
  less : text = ['<'] → ∀ c ∈ after.head?, c ≠ '=' ∧ c ≠ '>'
  greater : text = ['>'] → ∀ c ∈ after.head?, c ≠ '='
  slash : text = ['/'] → ∀ c ∈ after.head?, c ≠ '/'
  point : text = ['.'] → ∀ c ∈ after.head?, isDigit c = false

namespace Longest

variable {text after : List Char}

/-- What follows the longest lexeme does not make a longer one of it. -/
theorem not_isLexeme (h : Longest text after) {c : Char} (next : c ∈ after.head?) :
    ¬ IsLexeme (text ++ [c]) := by
  intro lexeme
  obtain ⟨after, rfl⟩ : ∃ tail, after = c :: tail := List.head?_eq_some_iff.mp next
  have longer := h.longest _ lexeme (by simp)
  simp only [List.length_append, List.length_singleton] at longer
  omega

theorem uncut (h : Longest text after) (point : IsNumber text → after.head? ≠ some '.') :
    Uncut text after where
  word := by
    rintro ⟨first, rest, same, start, parts⟩ c next
    rw [String.toList_ofList] at same
    by_contra part
    rw [Bool.not_eq_false] at part
    refine h.not_isLexeme next (.word ⟨first, rest ++ [c], ?_, start, ?_⟩)
    · rw [String.toList_ofList, same, List.cons_append]
    · exact List.forall_mem_append.mpr ⟨parts, List.forall_mem_singleton.mpr part⟩
  number := by
    intro number c next
    constructor
    · by_contra digit
      rw [Bool.not_eq_false] at digit
      have digit : ∀ d ∈ [c], isDigit d = true := List.forall_mem_singleton.mpr digit
      refine h.not_isLexeme next (.number ?_)
      cases number with
      | whole some digits =>
        exact .whole (by simp) (List.forall_mem_append.mpr ⟨digits, digit⟩)
      | pointed some digits decimals =>
        rw [List.append_assoc, List.cons_append]
        exact .pointed (.inr (by simp)) digits (List.forall_mem_append.mpr ⟨decimals, digit⟩)
    · rintro rfl
      exact point number next
  less := by
    rintro rfl c next
    constructor
    · rintro rfl
      exact h.not_isLexeme next (@IsLexeme.punctuation _ .operator (by decide))
    · rintro rfl
      exact h.not_isLexeme next (@IsLexeme.punctuation _ .operator (by decide))
  greater := by
    rintro rfl c next rfl
    exact h.not_isLexeme next (@IsLexeme.punctuation _ .operator (by decide))
  slash := by
    rintro rfl c next rfl
    exact h.not_isLexeme next (.skipped (.comment (by decide)))
  point := by
    rintro rfl c next
    by_contra digit
    rw [Bool.not_eq_false] at digit
    have digit : ∀ d ∈ [c], isDigit d = true := List.forall_mem_singleton.mpr digit
    exact h.not_isLexeme next (.number (@IsNumber.pointed [] [c] (.inr (by simp)) (by simp) digit))

end Longest

namespace Lexeme

variable {vocabulary : Vocabulary} {cs rest other : List Char} {c : Char} {tail : List Char}
  {lexeme : Lexeme}

/-! ## The longest lexeme -/

theorem length_le_takeWhile {p : Char → Bool} (h : ∀ d ∈ other, p d = true) (more : List Char) :
    other.length ≤ ((other ++ more).takeWhile p).length := by
  rw [List.takeWhile_append_of_pos h, List.length_append]
  omega

/-- A text with a point in it is not the front of a longer number. -/
theorem length_le_spanNumber (h : IsNumber other) (more : List Char) :
    other.length ≤ (spanNumber (other ++ more)).1.length := by
  cases h with
  | whole some digits =>
    have := length_le_takeWhile digits more
    unfold spanNumber
    split
    · simp only [List.length_append, List.length_cons]
      omega
    · exact this
  | @pointed whole decimals some digits rest =>
    have notPoint : isDigit '.' = false := by decide
    have := length_le_takeWhile rest more
    rw [spanNumber, List.append_assoc, List.takeWhile_append_of_pos digits,
      List.dropWhile_append_of_pos digits]
    simp [notPoint]
    omega

theorem startsNumber_of_isNumber (h : IsNumber other) : startsNumber other = true := by
  cases h with
  | whole some digits =>
    cases other with
    | nil => contradiction
    | cons c tail =>
      have digit := digits c (.head _)
      have point : c ≠ '.' := by
        rintro rfl
        cases digit
      simp [startsNumber, point, digit]
  | @pointed whole decimals some digits rest =>
    cases whole with
    | nil =>
      cases decimals with
      | nil => simp at some
      | cons d decimals => exact rest d (.head _)
    | cons c whole =>
      have digit := digits c (.head _)
      have point : c ≠ '.' := by
        rintro rfl
        cases digit
      simp [startsNumber, point, digit]

theorem length_le_of_run {form : Form} {p : Char → Bool} (h : ∀ d ∈ other, p d = true)
    (more : List Char)
    (scanned : scan vocabulary (other ++ more) = .ok (run form p (other ++ more)))
    (found : scan vocabulary (other ++ more) = .ok (lexeme, rest)) :
    other.length ≤ lexeme.text.length := by
  rw [scanned] at found
  cases found
  exact length_le_takeWhile h more

/-- A scan never stops short of a lexeme. -/
theorem length_le_of_scan (h : IsLexeme other) (more : List Char)
    (found : scan vocabulary (other ++ more) = .ok (lexeme, rest)) :
    other.length ≤ lexeme.text.length := by
  cases h with
  | skipped h =>
    cases h with
    | @comment cs inside =>
      have slashes : ['/', '/'] <+: '/' :: '/' :: cs ++ more := ⟨cs ++ more, rfl⟩
      exact length_le_of_run (comment_line inside) more (scan_comment slashes) found
    | lineBreak some each =>
      match other, some, each with
      | c :: cs, _, each =>
      exact length_le_of_run each more (scan_lineBreak (each c (.head _)) (cs ++ more)) found
    | blank some each =>
      match other, some, each with
      | c :: cs, _, each =>
      exact length_le_of_run each more (scan_blank (each c (.head _)) (cs ++ more)) found
  | word h =>
    obtain ⟨c, cs, same, start, parts⟩ := h
    rw [String.toList_ofList] at same
    subst same
    have each : ∀ d ∈ c :: cs, isWordPart d = true :=
      List.forall_mem_cons.mpr ⟨by simp [isWordPart, start], parts⟩
    exact length_le_of_run each more (scan_word start (cs ++ more)) found
  | number h =>
    have first := startsNumber_of_isNumber h
    rw [scan_number (startsNumber_of_isPrefix (List.prefix_append other more) first)] at found
    rw [text_of_scanNumber found]
    exact length_le_spanNumber h more
  | @literal cs literal read whole =>
    rw [List.cons_append, scan_literal, readLiteral_append read more] at found
    cases found
    have same := append_of_readLiteral read
    rw [whole] at same
    simp at same
    simp [same]
  | @punctuation text kind member =>
    have single := (append_of_scan found).1
    have sizes : ∀ entry ∈ punctuation, entry.1.length ≤ 1 ∨
        entry.1 = ['<', '='] ∨ entry.1 = ['>', '='] ∨ entry.1 = ['<', '>'] := by decide
    obtain short | rfl | rfl | rfl : other.length ≤ 1 ∨
        other = ['<', '='] ∨ other = ['>', '='] ∨ other = ['<', '>'] := sizes _ member
    · have := List.length_pos_iff.mpr single
      omega
    · cases found
      rfl
    · cases found
      rfl
    · cases found
      rfl

theorem isNumber_spanNumber (h : startsNumber cs = true) : IsNumber (spanNumber cs).1 := by
  have digits : ∀ c ∈ cs.takeWhile isDigit, isDigit c = true := fun c => List.mem_takeWhile_imp
  have starts := startsNumber_spanNumber h
  cases spanned : spanNumber cs with
  | mk text rest =>
  rw [spanned] at starts
  unfold spanNumber at spanned
  split at spanned
  · cases spanned
    refine .pointed ?_ digits fun c => List.mem_takeWhile_imp
    by_contra none
    simp only [not_or, not_not] at none
    rw [none.1, none.2] at starts
    cases starts
  · cases spanned
    refine .whole ?_ digits
    intro none
    rw [none] at starts
    cases starts

/-- The text of a token is a lexeme. Only of a string literal is the value not the text. -/
theorem content_of_scan (h : scan vocabulary cs = .ok (lexeme, rest)) {kind : Token.Kind}
    {value : String} (form : lexeme.form = .content kind value) :
    IsLexeme lexeme.text ∧ (kind ≠ .string → value = String.ofList lexeme.text) := by
  cases scanned_of_scan h with
  | comment _ ran | lineBreak _ ran | blank _ ran =>
    cases ran
    cases form
  | word start same ran =>
    cases ran
    cases form
    cases same
    exact ⟨.word (isWord_run start), fun _ => rfl⟩
  | number starts read =>
    rw [(scanNumber_eq_ok.mp read).2.2] at form
    cases form
    refine ⟨?_, fun _ => rfl⟩
    rw [text_of_scanNumber read]
    exact .number (isNumber_spanNumber starts)
  | literal read =>
    cases form
    obtain ⟨body, same, alone⟩ := readLiteral_front read []
    rw [List.append_nil] at alone
    refine ⟨?_, fun other => absurd rfl other⟩
    rw [same]
    exact .literal alone rfl
  | punctuation comment number found =>
    obtain ⟨kind, member, same⟩ := scanPunctuation_eq_some found
    rw [same] at form
    cases form
    exact ⟨.punctuation member, fun _ => rfl⟩

/-- What a lexeme is for, by its text. -/
theorem purpose_of_scan (h : scan vocabulary cs = .ok (lexeme, rest)) :
    ((∀ kind value, lexeme.form ≠ .content kind value) ∧ IsSkipped lexeme.text) ∨
    ∃ kind value, lexeme.form = .content kind value ∧ IsLexeme lexeme.text ∧
      (kind ≠ .string → value = String.ofList lexeme.text) := by
  cases ended_of_scan h with
  | content form => exact .inr ⟨_, _, form, content_of_scan h form⟩
  | comment inside => exact .inl ⟨nofun, .comment inside⟩
  | lineBreak some each => exact .inl ⟨nofun, .lineBreak some each⟩
  | blank some each => exact .inl ⟨nofun, .blank some each⟩

/-- A scan finds the longest lexeme. -/
theorem longest_of_scan (h : scan vocabulary cs = .ok (lexeme, rest)) :
    Longest lexeme.text rest := by
  refine ⟨?_, fun other possible front => ?_⟩
  · obtain ⟨-, skipped⟩ | ⟨_, _, -, text, -⟩ := purpose_of_scan h
    · exact .skipped skipped
    · exact text
  · obtain ⟨more, same⟩ := front
    have whole := (append_of_scan h).2
    rw [← whole, ← same] at h
    exact length_le_of_scan possible more h

/-- No second point follows a number. -/
theorem point_of_scan (h : scan vocabulary cs = .ok (lexeme, rest))
    (number : IsNumber lexeme.text) : rest.head? ≠ some '.' := by
  have front : lexeme.text <+: cs := ⟨rest, (append_of_scan h).2⟩
  have starts := startsNumber_of_isPrefix front (startsNumber_of_isNumber number)
  rw [scan_number starts] at h
  exact (scanNumber_eq_ok.mp h).2.1

theorem uncut_of_scan (h : scan vocabulary cs = .ok (lexeme, rest)) :
    Uncut lexeme.text rest :=
  (longest_of_scan h).uncut (point_of_scan h)

end Lexeme

end PseudoLang
