import Mathlib.Data.List.TakeWhile
import PseudoLang.Proofs.Outcome
import PseudoLang.Token.Lexeme

/-!
The first lexeme of a text, class by class (`Scanned`). The classes are told apart by the first
character, except that two slashes begin a comment, and a point with a digit after it a number.
-/

namespace PseudoLang

open Text (isDigit)

namespace Lexeme

variable {vocabulary : Vocabulary} {cs front rest : List Char} {c : Char} {tail : List Char}
  {lexeme : Lexeme}

/-! ## Classes of characters -/

theorem lineBreak_cases (h : isLineBreak c = true) : c = '\n' ∨ c = '\r' := by
  simpa [isLineBreak] using h

theorem blank_cases (h : isBlank c = true) : c = ' ' ∨ c = '\t' := by
  simpa [isBlank] using h

/-- Whether a word or a number may start with a character. -/
def startsWordOrNumber (c : Char) : Bool := isWordStart c || isDigit c || c == '.'

theorem isWordStart_eq_false_of_isDigit (h : isDigit c = true) : isWordStart c = false := by
  simp only [isDigit, Bool.and_eq_true, decide_eq_true_eq, Char.le_def,
    UInt32.le_iff_toNat_le] at h
  simp [isWordStart, Char.le_def, UInt32.le_iff_toNat_le] at h ⊢
  refine ⟨by omega, ?_⟩
  rintro rfl
  simp at h

theorem not_comment (h : startsWordOrNumber c = true) (tail : List Char) :
    ¬ ['/', '/'] <+: c :: tail := by
  intro comment
  obtain ⟨rfl, -⟩ := List.cons_prefix_cons.mp comment
  cases h

theorem isLineBreak_eq_false (h : startsWordOrNumber c = true) : isLineBreak c = false := by
  by_contra lineBreak
  rw [Bool.not_eq_false] at lineBreak
  obtain rfl | rfl := lineBreak_cases lineBreak <;> cases h

theorem isBlank_eq_false (h : startsWordOrNumber c = true) : isBlank c = false := by
  by_contra blank
  rw [Bool.not_eq_false] at blank
  obtain rfl | rfl := blank_cases blank <;> cases h

/-- The characters of a comment, its slashes among them, are on one line. -/
theorem comment_line (inside : '\n' ∉ cs) : ∀ c ∈ '/' :: '/' :: cs, (c != '\n') = true := by
  have others : ∀ c ∈ cs, (c != '\n') = true := fun c member => by
    simpa using ne_of_mem_of_not_mem member inside
  exact List.forall_mem_cons.mpr ⟨rfl, List.forall_mem_cons.mpr ⟨rfl, others⟩⟩

/-- A text starts with a number if its front does. -/
theorem startsNumber_of_isPrefix (cut : front <+: cs) (h : startsNumber front = true) :
    startsNumber cs = true := by
  obtain ⟨back, rfl⟩ := cut
  match front, h with
  | [c], digit =>
    have point : c ≠ '.' := by
      rintro rfl
      cases digit
    simpa [startsNumber, point] using digit
  | c :: d :: front, digit =>
    by_cases point : c = '.'
    · subst point
      exact digit
    · simpa [startsNumber, point] using digit

/-! ## Scans by class -/

theorem scan_comment (h : ['/', '/'] <+: cs) :
    scan vocabulary cs = .ok (run .comment (· != '\n') cs) := by
  cases cs with
  | nil => simp at h
  | cons c tail => exact if_pos h

theorem scan_lineBreak (h : isLineBreak c = true) (tail : List Char) :
    scan vocabulary (c :: tail) = .ok (run .lineBreak isLineBreak (c :: tail)) := by
  obtain rfl | rfl := lineBreak_cases h <;> rfl

theorem scan_blank (h : isBlank c = true) (tail : List Char) :
    scan vocabulary (c :: tail) = .ok (run .blank isBlank (c :: tail)) := by
  obtain rfl | rfl := blank_cases h <;> rfl

theorem scan_word (h : isWordStart c = true) (tail : List Char) :
    scan vocabulary (c :: tail) =
      .ok (run (.content (vocabulary.classify (String.ofList ((c :: tail).takeWhile isWordPart)))
        (String.ofList ((c :: tail).takeWhile isWordPart))) isWordPart (c :: tail)) := by
  have starts : startsWordOrNumber c = true := by simp [startsWordOrNumber, h]
  unfold scan
  dsimp only
  rw [if_neg (not_comment starts tail), if_neg (by simp [isLineBreak_eq_false starts]),
    if_neg (by simp [isBlank_eq_false starts]), if_pos h]

theorem scan_number (h : startsNumber cs = true) : scan vocabulary cs = scanNumber cs := by
  cases cs with
  | nil => cases h
  | cons c tail =>
    have first : isDigit c = true ∨ c = '.' := by
      by_cases point : c = '.'
      · exact .inr point
      · simpa [startsNumber, point] using h
    have starts : startsWordOrNumber c = true := by
      obtain digit | rfl := first
      · simp [startsWordOrNumber, digit]
      · rfl
    have word : isWordStart c = false := by
      obtain digit | rfl := first
      · exact isWordStart_eq_false_of_isDigit digit
      · rfl
    unfold scan
    dsimp only
    rw [if_neg (not_comment starts tail), if_neg (by simp [isLineBreak_eq_false starts]),
      if_neg (by simp [isBlank_eq_false starts]), if_neg (by simp [word]), if_pos h]

theorem scan_literal (tail : List Char) : scan vocabulary ('"' :: tail) = (do
    let literal ← readLiteral [] ['"'] tail
    return (⟨.content .string (String.ofList literal.value), literal.text⟩, literal.rest)) :=
  rfl

/-- A sign that is found stands at the front. -/
theorem scanPunctuation_eq_some (h : scanPunctuation cs = some (lexeme, rest)) :
    ∃ kind, (lexeme.text, kind) ∈ punctuation ∧
      lexeme.form = .content kind (String.ofList lexeme.text) := by
  obtain ⟨⟨text, kind⟩, member, found⟩ := List.exists_of_findSome?_eq_some h
  dsimp only at found
  split at found
  · cases found
    exact ⟨kind, member, rfl⟩
  · cases found

theorem scan_punctuation (comment : ¬ ['/', '/'] <+: cs) (number : startsNumber cs = false)
    (h : scanPunctuation cs = some (lexeme, rest)) : scan vocabulary cs = .ok (lexeme, rest) := by
  have others : ∀ entry ∈ punctuation, entry.1.head?.any
      (fun c => isLineBreak c || isBlank c || isWordStart c || c == '"') = false := by decide
  obtain ⟨kind, member, -⟩ := scanPunctuation_eq_some h
  obtain ⟨some, whole⟩ := append_of_scanPunctuation h
  obtain ⟨c, text, same⟩ := List.exists_cons_of_ne_nil some
  have other := others _ member
  rw [same, List.head?_cons, Option.any_some] at other
  simp only [Bool.or_eq_false_iff, beq_eq_false_iff_ne] at other
  obtain ⟨⟨⟨lineBreak, blank⟩, word⟩, quote⟩ := other
  rw [same, List.cons_append] at whole
  subst whole
  unfold scan
  dsimp only
  rw [if_neg comment, if_neg (by simp [lineBreak]), if_neg (by simp [blank]),
    if_neg (by simp [word]), if_neg (by simp [number]), if_neg quote, h]

/-! ## What is scanned -/

/-- A number with the text after it, in which no second point follows. -/
theorem scanNumber_eq_ok : scanNumber cs = .ok (lexeme, rest) ↔
    spanNumber cs = (lexeme.text, rest) ∧ rest.head? ≠ some '.' ∧
      lexeme.form = .content (if '.' ∈ lexeme.text then .float else .number)
        (String.ofList lexeme.text) := by
  unfold scanNumber
  cases spanNumber cs with
  | mk text after =>
    dsimp only
    split
    · rename_i point
      refine ⟨nofun, ?_⟩
      rintro ⟨same, other, -⟩
      cases same
      exact absurd point other
    · rename_i point
      constructor
      · rintro ⟨⟩
        exact ⟨rfl, point, rfl⟩
      · rintro ⟨same, -, form⟩
        cases same
        rw [← form]

/-- A lexeme with the text after it, by its class. -/
inductive Scanned (vocabulary : Vocabulary) : List Char → Lexeme → List Char → Prop
  | comment {cs rest : List Char} {lexeme : Lexeme} : ['/', '/'] <+: cs →
    run .comment (· != '\n') cs = (lexeme, rest) → Scanned vocabulary cs lexeme rest
  | lineBreak {c : Char} {tail rest : List Char} {lexeme : Lexeme} : isLineBreak c = true →
    run .lineBreak isLineBreak (c :: tail) = (lexeme, rest) →
    Scanned vocabulary (c :: tail) lexeme rest
  | blank {c : Char} {tail rest : List Char} {lexeme : Lexeme} : isBlank c = true →
    run .blank isBlank (c :: tail) = (lexeme, rest) → Scanned vocabulary (c :: tail) lexeme rest
  | word {c : Char} {tail text rest : List Char} {form : Form} : isWordStart c = true →
    form = .content (vocabulary.classify (String.ofList text)) (String.ofList text) →
    run form isWordPart (c :: tail) = (⟨form, text⟩, rest) →
    Scanned vocabulary (c :: tail) ⟨form, text⟩ rest
  | number {cs rest : List Char} {lexeme : Lexeme} : startsNumber cs = true →
    scanNumber cs = .ok (lexeme, rest) → Scanned vocabulary cs lexeme rest
  | literal {tail : List Char} {literal : Literal} : readLiteral [] ['"'] tail = .ok literal →
    Scanned vocabulary ('"' :: tail)
      ⟨.content .string (String.ofList literal.value), literal.text⟩ literal.rest
  | punctuation {cs rest : List Char} {lexeme : Lexeme} : ¬ ['/', '/'] <+: cs →
    startsNumber cs = false → scanPunctuation cs = some (lexeme, rest) →
    Scanned vocabulary cs lexeme rest

theorem scanned_of_scan (h : scan vocabulary cs = .ok (lexeme, rest)) :
    Scanned vocabulary cs lexeme rest := by
  unfold scan at h
  split at h
  case h_1 => cases h
  case h_2 c tail =>
  split at h
  case isTrue slashes => exact .comment slashes (Except.ok.inj h)
  rename_i comment
  split at h
  case isTrue lineBreak => exact .lineBreak lineBreak (Except.ok.inj h)
  split at h
  case isTrue blank => exact .blank blank (Except.ok.inj h)
  split at h
  case isTrue word =>
    cases h
    exact .word word rfl rfl
  split at h
  case isTrue starts => exact .number starts h
  rename_i number
  split at h
  case isTrue quote =>
    subst quote
    obtain ⟨literal, read, h⟩ := bind_eq_ok.mp h
    cases h
    exact .literal read
  split at h
  case h_1 found same =>
    cases h
    exact .punctuation comment (eq_false_of_ne_true number) same
  case h_2 => cases h

theorem scan_of_scanned (h : Scanned vocabulary cs lexeme rest) :
    scan vocabulary cs = .ok (lexeme, rest) := by
  cases h with
  | comment slashes ran => rw [scan_comment slashes, ran]
  | lineBreak first ran => rw [scan_lineBreak first, ran]
  | blank first ran => rw [scan_blank first, ran]
  | word first form ran =>
    cases ran
    cases form
    rw [scan_word first]
    rfl
  | number starts read => rw [scan_number starts, read]
  | literal read =>
    rw [scan_literal, read]
    rfl
  | punctuation comment number found => exact scan_punctuation comment number found

/-! ## What is skipped -/

/-- A run of characters goes on as far as it can. -/
theorem stops_of_dropWhile (p : Char → Bool) (cs : List Char) :
    ∀ c ∈ (cs.dropWhile p).head?, p c = false := by
  intro c next
  have stops := List.head?_dropWhile_not p cs
  rw [next] at stops
  simpa using stops

/-- A lexeme before the text after it: a token, or else characters of one class up to the first one
that is not of the class. -/
inductive Ended : Lexeme → List Char → Prop
  | content {rest : List Char} {lexeme : Lexeme} {kind : Token.Kind} {value : String} :
    lexeme.form = .content kind value → Ended lexeme rest
  | comment {text rest : List Char} : '\n' ∉ text → (∀ c ∈ rest.head?, c = '\n') →
    Ended ⟨.comment, '/' :: '/' :: text⟩ rest
  | lineBreak {text rest : List Char} : text ≠ [] → (∀ c ∈ text, isLineBreak c = true) →
    (∀ c ∈ rest.head?, isLineBreak c = false) → Ended ⟨.lineBreak, text⟩ rest
  | blank {text rest : List Char} : text ≠ [] → (∀ c ∈ text, isBlank c = true) →
    (∀ c ∈ rest.head?, isBlank c = false) → Ended ⟨.blank, text⟩ rest

theorem ended_of_scan (h : scan vocabulary cs = .ok (lexeme, rest)) : Ended lexeme rest := by
  cases scanned_of_scan h with
  | comment slashes ran =>
    cases ran
    obtain ⟨tail, rfl⟩ := slashes
    have inside : '\n' ∉ tail.takeWhile (· != '\n') := fun member => by
      simpa using List.mem_takeWhile_imp member
    have line := stops_of_dropWhile (· != '\n') tail
    simpa using Ended.comment inside fun c next => by simpa using line c next
  | lineBreak first ran =>
    cases ran
    exact .lineBreak (append_of_scan h).1 (fun _ => List.mem_takeWhile_imp)
      (stops_of_dropWhile _ _)
  | blank first ran =>
    cases ran
    exact .blank (append_of_scan h).1 (fun _ => List.mem_takeWhile_imp)
      (stops_of_dropWhile _ _)
  | word start form ran => exact .content form
  | number starts read => exact .content (scanNumber_eq_ok.mp read).2.2
  | literal read => exact .content rfl
  | punctuation comment number found =>
    obtain ⟨kind, -, form⟩ := scanPunctuation_eq_some found
    exact .content form

end Lexeme

end PseudoLang
