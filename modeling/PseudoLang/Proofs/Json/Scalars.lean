import Mathlib.Data.List.Basic
import PseudoLang.Proofs.Json.Reading
import PseudoLang.Proofs.Number.Numeral

/-!
Reading strings, names and numbers. A string reads back from its text (`readString_quote`), and so
do the names and the integers; the text of a floating-point number is well formed (`scalar_float`).
-/

namespace PseudoLang.Json

open Number (Binary64 ofDigits WholePart Fraction ExponentPart Numeral span_append)
open Text (isDigit hexValue?)

/-! ## Strings -/

theorem hexValue?_digitChar {n : Nat} (h : n < 16) : hexValue? n.digitChar = some n := by
  have all : ∀ n < 16, hexValue? n.digitChar = some n := by decide
  exact all n h

/-- The unit of an escaped control character. -/
theorem unit?_control {c : Char} (h : c.toNat < 0x20) :
    unit? '0' '0' (Nat.digitChar (c.toNat / 16)) (Nat.digitChar (c.toNat % 16)) =
      some c.toNat := by
  have zero : hexValue? '0' = some 0 := rfl
  simp only [unit?, zero, hexValue?_digitChar (n := c.toNat / 16) (by omega),
    hexValue?_digitChar (n := c.toNat % 16) (by omega)]
  simp
  omega

/-- A character reads back from the way it is written. -/
theorem readString_escape (c : Char) (rest : List Char) :
    readString (escape c ++ rest) = prepend c (readString rest) := by
  unfold escape
  split
  any_goals rfl
  rename_i quote backslash _ _ _ _ _
  split
  · rename_i control
    simp only [List.cons_append, List.nil_append, readString, unit?_control control]
    rw [if_neg (by omega), if_neg (by omega), Char.ofNat_toNat]
  · rename_i plain
    rw [List.singleton_append, readString]
    · rw [if_neg]
      rintro (same | control)
      · exact backslash same
      · exact plain control
    · exact quote
    · exact fun _ _ _ _ _ same _ => backslash same
    · exact fun _ _ same _ => backslash same

/-- A string reads back from its text. -/
theorem readString_quote (s : String) (rest : List Char) :
    ∃ text, quote s ++ rest = '"' :: text ∧ readString text = some (s.toList, rest) := by
  refine ⟨s.toList.flatMap escape ++ '"' :: rest, by simp [quote], ?_⟩
  induction s.toList with
  | nil => rfl
  | cons c cs ih =>
    rw [List.flatMap_cons, List.append_assoc, readString_escape, ih]
    rfl

/-! ## Numbers -/

theorem readInteger?_signed {sign : Char} (h : sign = '-' ∨ sign = '+') (n : Nat) :
    ∃ value, Number.readInteger? (sign :: Number.digits n) = some value := by
  have digits : (Number.digits n).all isDigit = true :=
    List.all_eq_true.mpr fun c => Number.isDigit_of_mem_digits
  have some := Number.digits_ne_nil n
  obtain rfl | rfl := h <;> simp [Number.readInteger?, Number.readSign, some, digits]

theorem readExponent?_exponentPart {text : List Char} (h : ExponentPart text) :
    ∃ value, Binary64.readExponent? text = some value := by
  cases h with
  | none => exact ⟨0, rfl⟩
  | some n sign =>
    obtain ⟨value, read⟩ := readInteger?_signed sign n
    exact ⟨value, by rw [Binary64.readExponent?, if_pos (.inl rfl), read]⟩

theorem not_isDigit_exponent {text : List Char} (h : ExponentPart text) :
    ∀ c ∈ text.head?, isDigit c = false := by
  cases h with
  | none => simp
  | some n sign => simp [isDigit]

theorem fraction?_append {fraction exponent : List Char} (hf : Fraction fraction)
    (he : ExponentPart exponent) :
    ∃ decimals, fraction? (fraction ++ exponent) = some (decimals, exponent) := by
  cases hf with
  | none =>
    cases he with
    | none => exact ⟨[], rfl⟩
    | some n sign => exact ⟨[], rfl⟩
  | @some cs digits some =>
    obtain ⟨taken, left⟩ := span_append digits (not_isDigit_exponent he)
    refine ⟨cs, ?_⟩
    rw [List.cons_append, fraction?, taken, left, if_neg some]

/-- No whole part is empty or has a zero in front. -/
theorem proper_of_wholePart {cs : List Char} (h : WholePart cs) :
    ¬ (cs = [] ∨ cs.head? = some '0' ∧ cs.length ≠ 1) := by
  rintro (none | ⟨zero, longer⟩)
  · exact h.nonempty none
  · exact longer (h.leading zero)

theorem unsigned?_numeral {text : List Char} (h : Numeral text) (negative : Bool) :
    ∃ value, unsigned? negative text = some value := by
  obtain @⟨whole, fraction, exponent, hw, hf, he⟩ := h
  have stops : ∀ c ∈ (fraction ++ exponent).head?, isDigit c = false := by
    cases hf with
    | none => exact not_isDigit_exponent he
    | some => simp [isDigit]
  obtain ⟨taken, left⟩ := span_append hw.digits stops
  obtain ⟨decimals, fraction⟩ := fraction?_append hf he
  obtain ⟨power, exponent⟩ := readExponent?_exponentPart he
  unfold unsigned?
  dsimp only
  rw [taken, left, if_neg (proper_of_wholePart hw), fraction]
  simp only [Option.bind_eq_bind, Option.bind_some, exponent]
  split
  · exact ⟨_, rfl⟩
  · exact ⟨_, rfl⟩

theorem unsigned?_digits (negative : Bool) (n : Nat) :
    unsigned? negative (Number.digits n) = some (integer (if negative then -(n : Int) else n)) := by
  have hw := Number.wholePart_digits n
  have stops : ∀ c ∈ ([] : List Char).head?, isDigit c = false := by simp
  obtain ⟨taken, left⟩ := span_append hw.digits stops
  rw [List.append_nil] at taken left
  unfold unsigned?
  dsimp only
  rw [taken, left, if_neg (proper_of_wholePart hw), Number.ofDigits_digits]
  rfl


/-! ## Names and numbers -/

theorem isScalarPart_of_isDigit {c : Char} (h : isDigit c = true) : isScalarPart c = true := by
  have digit : c.isDigit = true := by simpa [Char.isDigit, isDigit, Char.le_def] using h
  simp [isScalarPart, Char.isAlphanum, digit]

theorem isScalarPart_of_mem_exponent {text : List Char} (h : ExponentPart text) {c : Char}
    (member : c ∈ text) : isScalarPart c = true := by
  cases h with
  | none => simp at member
  | some n sign =>
    obtain _ | ⟨_, _ | ⟨_, digit⟩⟩ := member
    · decide
    · obtain rfl | rfl := sign <;> decide
    · exact isScalarPart_of_isDigit (Number.isDigit_of_mem_digits digit)

theorem isScalarPart_of_mem_fraction {text : List Char} (h : Fraction text) {c : Char}
    (member : c ∈ text) : isScalarPart c = true := by
  cases h with
  | none => simp at member
  | some digits some =>
    obtain _ | ⟨_, digit⟩ := member
    · decide
    · exact isScalarPart_of_isDigit (digits c digit)

theorem isScalarPart_of_mem_numeral {text : List Char} (h : Numeral text) {c : Char}
    (member : c ∈ text) : isScalarPart c = true := by
  obtain ⟨hw, hf, he⟩ := h
  rcases List.mem_append.mp member with digit | member
  · exact isScalarPart_of_isDigit (hw.digits c digit)
  · rcases List.mem_append.mp member with member | member
    · exact isScalarPart_of_mem_fraction hf member
    · exact isScalarPart_of_mem_exponent he member

/-- A text that starts with a digit is no name, and a number without sign. -/
theorem scalar?_numeral {text : List Char} (h : Numeral text) :
    scalar? text = unsigned? false text := by
  obtain @⟨whole, fraction, exponent, hw, hf, he⟩ := h
  match whole, hw.nonempty, hw.digits with
  | c :: whole, _, digits =>
    have digit := digits c (.head _)
    have other {name : Char} (letter : isDigit name = false) : c ≠ name := by
      rintro rfl
      simp [digit] at letter
    have n : c ≠ 'n' := other (by decide)
    have t : c ≠ 't' := other (by decide)
    have f : c ≠ 'f' := other (by decide)
    have minus : c ≠ '-' := other (by decide)
    rw [List.cons_append]
    unfold scalar?
    rw [if_neg (by simp [n]), if_neg (by simp [t]), if_neg (by simp [f])]
    split
    · rename_i same
      exact absurd (List.cons.inj same).1 minus
    · rfl

theorem scalar?_minus (text : List Char) : scalar? ('-' :: text) = unsigned? true text := by
  unfold scalar?
  rw [if_neg (by simp), if_neg (by simp), if_neg (by simp)]
  rfl

/-- A name or number that reads as a value. -/
structure Scalar (text : List Char) (value : Json) : Prop where
  parts : ∀ c ∈ text, isScalarPart c = true
  value : scalar? text = some value

theorem scalar_null : Scalar "null".toList null := ⟨List.all_eq_true.mp (by decide), rfl⟩

theorem scalar_bool (value : Bool) :
    Scalar (if value then "true".toList else "false".toList) (bool value) := by
  cases value
  · exact ⟨List.all_eq_true.mp (by decide), rfl⟩
  · exact ⟨List.all_eq_true.mp (by decide), rfl⟩

/-- An integer reads back from its digits. -/
theorem scalar_integer (n : Int) : Scalar (Number.integerDigits n) (integer n) := by
  cases n with
  | ofNat n =>
    have numeral := Number.numeral_digits n
    refine ⟨fun c => isScalarPart_of_mem_numeral numeral, ?_⟩
    exact (scalar?_numeral numeral).trans (unsigned?_digits false n)
  | negSucc n =>
    have numeral := Number.numeral_digits (n + 1)
    refine ⟨fun c member => ?_, ?_⟩
    · obtain _ | ⟨_, member⟩ := member
      · decide
      · exact isScalarPart_of_mem_numeral numeral member
    · exact (scalar?_minus _).trans (unsigned?_digits true (n + 1))

/-- The value that the text of a floating-point number denotes. -/
def ofFloat (x : Binary64) : Json := (scalar? (floatText x)).getD null

/-- The text of a floating-point number is well formed. -/
theorem scalar_float (x : Binary64) : Scalar (floatText x) (ofFloat x) := by
  suffices read : (∀ c ∈ floatText x, isScalarPart c = true) ∧
      ∃ value, scalar? (floatText x) = some value by
    obtain ⟨parts, value, found⟩ := read
    exact ⟨parts, by rw [ofFloat, found, Option.getD_some]⟩
  cases x with
  | nan => exact ⟨scalar_null.parts, null, scalar_null.value⟩
  | infinite negative => exact ⟨scalar_null.parts, null, scalar_null.value⟩
  | finite negative significand exponent =>
    have numeral := Number.numeral_shortest numberStyle significand exponent
    have parts (c : Char) := isScalarPart_of_mem_numeral numeral (c := c)
    cases negative with
    | false =>
      obtain ⟨value, read⟩ := unsigned?_numeral numeral false
      exact ⟨parts, value, (scalar?_numeral numeral).trans read⟩
    | true =>
      obtain ⟨value, read⟩ := unsigned?_numeral numeral true
      refine ⟨fun c member => ?_, value, (scalar?_minus _).trans read⟩
      obtain _ | ⟨_, member⟩ := member
      · decide
      · exact parts c member

end PseudoLang.Json
