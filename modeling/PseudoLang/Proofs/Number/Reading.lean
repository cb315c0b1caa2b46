import Mathlib.Algebra.Group.Nat.Defs
import Mathlib.Data.Int.Basic
import PseudoLang.Number.Reading
import PseudoLang.Proofs.Number.Numeral

/-!
What numbers without a sign are read as. Digits alone are an integer, if there are any and the
integer fits into 64 bits (`readInt64?_eq_some`); digits with a point are always a floating-point
number (`read?_pointed`).
-/

namespace PseudoLang.Number

open Text (isDigit)

theorem readSign_of_head {cs : List Char} (h : ∀ c ∈ cs.head?, c ≠ '-' ∧ c ≠ '+') :
    readSign cs = (false, cs) := by
  unfold readSign
  split
  · exact absurd rfl (h '-' rfl).1
  · exact absurd rfl (h '+' rfl).2
  · rfl

theorem ne_sign_of_isDigit {c : Char} (h : isDigit c = true) : c ≠ '-' ∧ c ≠ '+' := by
  constructor <;> rintro rfl <;> cases h

/-! ## Integers -/

section

variable {text : String} (digits : ∀ c ∈ text.toList, isDigit c = true)

include digits

theorem readInteger?_digits (nonempty : text.toList ≠ []) :
    readInteger? text.toList = some (ofDigits text.toList : Int) := by
  have unsigned := @readSign_of_head text.toList
    fun c first => ne_sign_of_isDigit (digits c (List.mem_of_mem_head? first))
  rw [readInteger?, unsigned]
  exact if_pos ⟨nonempty, List.all_eq_true.mpr digits⟩

/-- Digits are the integer that they stand for, if 64 bits are enough for it. -/
theorem readInt64?_digits (nonempty : text.toList ≠ []) : readInt64? text =
    if ofDigits text.toList ≤ 2 ^ 63 - 1 then some (Int64.ofInt (ofDigits text.toList))
    else none := by
  have least := Int64.toInt_minValue
  have greatest := Int64.toInt_maxValue
  have bounds : (Int64.minValue.toInt ≤ (ofDigits text.toList : Int) ∧
      (ofDigits text.toList : Int) ≤ Int64.maxValue.toInt) ↔
        ofDigits text.toList ≤ 2 ^ 63 - 1 := by omega
  rw [readInt64?, readInteger?_digits digits nonempty]
  exact if_congr bounds rfl rfl

theorem toInt_of_readInt64? {value : Int64} (h : readInt64? text = some value) :
    value.toInt = ofDigits text.toList := by
  have nonempty : text.toList ≠ [] := by
    intro none
    rw [readInt64?, none] at h
    cases h
  rw [readInt64?_digits digits nonempty] at h
  split at h
  · rename_i fits
    cases h
    exact Int64.toInt_ofInt_of_le (by omega) (by omega)
  · cases h

end

/-! ## Floating-point numbers -/

namespace Binary64

/-- A character that a number without a sign begins with. -/
def Starts (c : Char) : Prop := isDigit c = true ∨ c = '.'

theorem Starts.toLower {c : Char} (h : Starts c) : c.toLower = c := by
  obtain digit | rfl := h
  · rw [isDigit, Bool.and_eq_true, decide_eq_true_iff, decide_eq_true_iff, Char.le_def,
      Char.le_def] at digit
    refine dif_neg ?_
    rintro ⟨upper, -⟩
    have impossible : 'A'.val ≤ '9'.val := UInt32.le_trans upper digit.2
    exact absurd impossible (by decide)
  · rfl

/-- What begins like a number is no word. -/
theorem ne_word {cs : List Char} (h : ∀ c ∈ cs.head?, Starts c) {word : String}
    (letter : ∃ c ∈ word.toList.head?, ¬ Starts c) :
    String.ofList (cs.map Char.toLower) ≠ word := by
  rintro rfl
  obtain ⟨c, first, other⟩ := letter
  rw [String.toList_ofList, List.head?_map, Option.mem_def, Option.map_eq_some_iff] at first
  obtain ⟨c, first, rfl⟩ := first
  rw [(h c first).toLower] at other
  exact other (h c first)

section

variable {whole decimals : List Char} (some : whole ≠ [] ∨ decimals ≠ [])
  (hw : ∀ c ∈ whole, isDigit c = true) (hd : ∀ c ∈ decimals, isDigit c = true)

include some hw hd

theorem readDecimal?_pointed : readDecimal? false (whole ++ '.' :: decimals) =
    .some (ofDecimal false (whole ++ decimals) (-decimals.length)) := by
  obtain ⟨taken, left⟩ := @span_append _ _ ('.' :: decimals) hw (by simp [isDigit])
  obtain ⟨decimals_taken, decimals_left⟩ := @span_append _ _ [] hd (by simp)
  rw [List.append_nil] at decimals_taken decimals_left
  have nonempty : ¬ (whole = [] ∧ decimals = []) := fun none =>
    some.elim (· none.1) (· none.2)
  rw [readDecimal?, taken, left]
  simp only [decimals_taken, decimals_left, readExponent?, if_neg nonempty, Option.bind_eq_bind,
    Option.bind_some, Int.zero_sub]

/-- Digits with a point are a floating-point number. -/
theorem read?_pointed : read? (String.ofList (whole ++ '.' :: decimals)) =
    .some (ofDecimal false (whole ++ decimals) (-decimals.length)) := by
  have starts : ∀ c ∈ (whole ++ '.' :: decimals).head?, Starts c := by
    cases whole with
    | nil =>
      rintro _ ⟨⟩
      exact .inr rfl
    | cons first whole =>
      rintro _ ⟨⟩
      exact .inl (hw _ List.mem_cons_self)
  have unsigned : readSign (whole ++ '.' :: decimals) = (false, whole ++ '.' :: decimals) := by
    refine readSign_of_head fun c first => ?_
    obtain digit | rfl := starts c first
    · exact ne_sign_of_isDigit digit
    · decide
  have infinite := @ne_word _ starts "inf" ⟨'i', rfl, by simp [Starts, isDigit]⟩
  have infinity := @ne_word _ starts "infinity" ⟨'i', rfl, by simp [Starts, isDigit]⟩
  have undefined := @ne_word _ starts "nan" ⟨'n', rfl, by simp [Starts, isDigit]⟩
  rw [read?, String.toList_ofList, unsigned]
  dsimp only
  rw [if_neg (not_or.mpr ⟨infinite, infinity⟩), if_neg undefined]
  exact readDecimal?_pointed some hw hd

end

end Binary64

end PseudoLang.Number
