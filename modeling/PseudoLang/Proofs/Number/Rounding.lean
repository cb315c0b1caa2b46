import Mathlib.Algebra.Group.Nat.Defs
import Mathlib.Data.Nat.Log
import PseudoLang.Proofs.Number.Numeral
import PseudoLang.Number.Reading

/-!
Which numbers are too large for 64 bits. A ratio is rounded to a finite number exactly if it lies
below the middle between the greatest of these and the next power of two (`isFinite_ofRatio`). The
same holds of a number in decimal notation, however many digits it has (`isFinite_ofDecimal`).
-/

namespace PseudoLang.Number

open Text (isDigit digitValue)

/-! ## Digits -/

theorem ofDigits_cons (c : Char) (cs : List Char) :
    ofDigits (c :: cs) = 10 ^ cs.length * digitValue c + ofDigits cs := by
  have first : ofDigits (c :: cs) = Nat.ofDigitChars 10 cs (10 * 0 + digitValue c) := rfl
  rw [first, Nat.ofDigitChars_eq_ofDigitChars_zero, Nat.mul_zero, Nat.zero_add]
  rfl

theorem digitValue_lt {c : Char} (h : isDigit c = true) : digitValue c < 10 := by
  rw [isDigit, Bool.and_eq_true, decide_eq_true_iff, decide_eq_true_iff] at h
  have greatest : c.toNat ≤ '9'.toNat := h.2
  have nine : '9'.toNat = '0'.toNat + 9 := rfl
  unfold digitValue
  omega

theorem digitValue_pos {c : Char} (h : isDigit c = true) (some : c ≠ '0') : 0 < digitValue c := by
  rw [isDigit, Bool.and_eq_true, decide_eq_true_iff, decide_eq_true_iff] at h
  have least : '0'.toNat ≤ c.toNat := h.1
  have other : c.toNat ≠ '0'.toNat := fun same => some (Char.toNat_inj.mp same)
  unfold digitValue
  omega

theorem ofDigits_lt {cs : List Char} (digits : ∀ c ∈ cs, isDigit c = true) :
    ofDigits cs < 10 ^ cs.length := by
  induction cs with
  | nil => exact Nat.zero_lt_one
  | cons c cs ih =>
    obtain ⟨first, digits⟩ := List.forall_mem_cons.mp digits
    have rest := ih digits
    have first := Nat.mul_le_mul_left (10 ^ cs.length) (Nat.le_of_lt_succ (digitValue_lt first))
    rw [ofDigits_cons, List.length_cons, Nat.pow_succ]
    omega

/-- Leading zeros do not count. -/
theorem ofDigits_dropWhile (cs : List Char) : ofDigits (cs.dropWhile (· == '0')) = ofDigits cs := by
  induction cs with
  | nil => rfl
  | cons c cs ih =>
    by_cases zero : c = '0'
    · subst zero
      rw [List.dropWhile_cons_of_pos (by decide), ih, ofDigits_cons]
      exact (Nat.zero_add _).symm
    · rw [List.dropWhile_cons_of_neg (by simpa using zero)]

/-- The first digit that is not zero tells the size of a number. -/
theorem pow_le_ofDigits {c : Char} {cs : List Char} (digit : isDigit c = true) (some : c ≠ '0') :
    10 ^ cs.length ≤ ofDigits (c :: cs) := by
  rw [ofDigits_cons]
  exact Nat.le_add_right_of_le (Nat.le_mul_of_pos_right _ (digitValue_pos digit some))

namespace Binary64

/-! ## Rounding -/

theorem roundQuotient_cases (num den : Nat) :
    (roundQuotient num den = num / den ∧ 2 * (num % den) ≤ den) ∨
      (roundQuotient num den = num / den + 1 ∧ den ≤ 2 * (num % den)) := by
  unfold roundQuotient
  dsimp only
  split
  · exact .inl ⟨rfl, by omega⟩
  · split
    · exact .inr ⟨rfl, by omega⟩
    · split
      · exact .inl ⟨rfl, by omega⟩
      · exact .inr ⟨rfl, by omega⟩

/-- A quotient is rounded up to an even number from the middle below it on. -/
theorem le_roundQuotient_iff {num den m : Nat} (hd : 0 < den) (even : m % 2 = 0) (some : m ≠ 0) :
    m ≤ roundQuotient num den ↔ (2 * m - 1) * den ≤ 2 * num := by
  have parts := Nat.div_add_mod num den
  have rest := Nat.mod_lt num hd
  have rounded := roundQuotient_cases num den
  obtain below | rfl | above : m ≤ num / den ∨ m = num / den + 1 ∨ num / den + 2 ≤ m := by omega
  · have scaled := Nat.mul_le_mul_left den below
    have half : (2 * m - 1) * den ≤ 2 * (den * m) := by
      rw [Nat.mul_left_comm, Nat.mul_comm den]
      exact Nat.mul_le_mul_right den (Nat.sub_le _ _)
    omega
  · -- the number below is odd, so that the middle belongs to the one above
    have tie : roundQuotient num den = num / den + 1 ↔ den ≤ 2 * (num % den) := by
      refine ⟨fun up => by omega, fun middle => ?_⟩
      unfold roundQuotient
      dsimp only
      rw [if_neg (Nat.not_lt.mpr middle), if_neg (c := num / den % 2 = 0) (by omega), ite_self]
    have half : (2 * (num / den + 1) - 1) * den = 2 * (den * (num / den)) + den := by
      rw [Nat.mul_add_one, Nat.add_sub_cancel_right _ 1, Nat.succ_mul, Nat.mul_assoc,
        Nat.mul_comm (num / den)]
    omega
  · have scaled := Nat.mul_le_mul_left den above
    have half : 2 * (den * m) - den ≤ (2 * m - 1) * den := by
      rw [Nat.sub_mul, Nat.mul_assoc, Nat.mul_comm m, Nat.one_mul]
    rw [Nat.mul_add] at scaled
    omega

/-! ## Magnitudes -/

theorem scale_neg (num den k : Nat) : scale num den (-k) = (num, den * 2 ^ k) := by
  unfold scale
  split
  · obtain rfl : k = 0 := by omega
    simp
  · simp

/-- The logarithms tell the size of a ratio but for a factor of two. -/
theorem floorLog2_cases (num den : Nat) :
    floorLog2 num den = num.log2 - den.log2 ∨ floorLog2 num den = num.log2 - den.log2 - 1 := by
  unfold floorLog2
  dsimp only
  split
  · exact .inr rfl
  · exact .inl rfl

theorem le_floorLog2_iff {num den : Nat} (hn : num ≠ 0) (hd : den ≠ 0) (k : Nat) :
    k ≤ floorLog2 num den ↔ 2 ^ k * den ≤ num := by
  have num_low := Nat.log2_self_le hn
  have num_high := @Nat.lt_log2_self num
  have den_low := Nat.log2_self_le hd
  have den_high := @Nat.lt_log2_self den
  have guess := floorLog2_cases num den
  obtain below | same | above :
    k + (den.log2 + 1) ≤ num.log2 ∨ (k : Int) = num.log2 - den.log2 ∨
      num.log2 + 1 ≤ k + den.log2 := by omega
  · refine iff_of_true (by omega) ?_
    calc 2 ^ k * den ≤ 2 ^ k * 2 ^ (den.log2 + 1) := Nat.mul_le_mul_left _ den_high.le
      _ = 2 ^ (k + (den.log2 + 1)) := (Nat.pow_add ..).symm
      _ ≤ 2 ^ num.log2 := Nat.pow_le_pow_right (by decide) below
      _ ≤ num := num_low
  · have exact : floorLog2 num den = if num < den * 2 ^ k then (k : Int) - 1 else k := by
      rw [floorLog2, ← same, scale_neg]
    rw [exact, Nat.mul_comm]
    split <;> omega
  · refine iff_of_false (by omega) (Nat.not_le.mpr ?_)
    calc num < 2 ^ (num.log2 + 1) := num_high
      _ ≤ 2 ^ (k + den.log2) := Nat.pow_le_pow_right (by decide) above
      _ = 2 ^ k * 2 ^ den.log2 := Nat.pow_add ..
      _ ≤ 2 ^ k * den := Nat.mul_le_mul_left _ den_low

/-! ## The greatest numbers -/

/-- The middle between the greatest finite number, `(2 ^ 53 - 1) * 2 ^ 971`, and `2 ^ 1024`. -/
def limit : Nat := (2 ^ 54 - 1) * 2 ^ 970

theorem isFinite_pack (negative : Bool) (significand : Nat) (exponent : Int) :
    (pack negative significand exponent).isFinite = true ↔
      exponent < maxExponent ∨ exponent = maxExponent ∧ significand ≠ 2 ^ precision := by
  have isFinite_ite (least : Int) (n : Nat) :
      (if maxExponent < least then infinite negative else finite negative n least).isFinite = true ↔
        least ≤ maxExponent := by
    split
    · exact iff_of_false nofun (by omega)
    · exact iff_of_true rfl (by omega)
  unfold pack
  by_cases carry : significand = 2 ^ precision
  · rw [if_pos (by rw [Nat.pow_eq, carry])]
    refine (isFinite_ite ..).trans ⟨fun fits => .inl fits, ?_⟩
    rintro (fits | ⟨-, other⟩)
    · exact fits
    · exact absurd carry other
  · rw [if_neg (by rwa [Nat.pow_eq])]
    refine (isFinite_ite ..).trans ⟨fun fits => ?_, ?_⟩
    · exact (Int.lt_or_eq_of_le fits).imp_right fun same => ⟨same, carry⟩
    · rintro (fits | ⟨rfl, -⟩)
      · exact fits.le
      · exact Int.le_refl _

/-- The exponent that a ratio is rounded with. -/
def exponentOf (num den : Nat) : Int :=
  max (floorLog2 num den - (precision - 1 : Nat)) minExponent

theorem ofRatio_eq (negative : Bool) {num : Nat} (hn : num ≠ 0) (den : Nat) :
    ofRatio negative num den = pack negative
      (roundQuotient (scale num den (-exponentOf num den)).1
        (scale num den (-exponentOf num den)).2) (exponentOf num den) := if_neg hn

/-- What is rounded to a finite number. -/
theorem isFinite_ofRatio (negative : Bool) (num : Nat) {den : Nat} (hd : 0 < den) :
    (ofRatio negative num den).isFinite = true ↔ num < limit * den := by
  obtain ⟨shift, limit_eq, greatest⟩ :
      ∃ shift : Nat, limit = (2 ^ 54 - 1) * 2 ^ shift ∧ maxExponent = shift + 1 :=
    ⟨970, rfl, rfl⟩
  obtain ⟨unit, unit_eq⟩ : ∃ unit, unit = 2 ^ shift * den := ⟨_, rfl⟩
  have unit_pos : 0 < unit := unit_eq ▸ Nat.mul_pos (Nat.two_pow_pos shift) hd
  have power (k : Nat) : 2 ^ (k + shift) * den = 2 ^ k * unit := by
    rw [unit_eq, Nat.pow_add, Nat.mul_assoc]
  have middle : limit * den = (2 ^ 54 - 1) * unit := by rw [unit_eq, limit_eq, Nat.mul_assoc]
  rw [middle]
  by_cases hn : num = 0
  · subst hn
    exact iff_of_true rfl (Nat.mul_pos (by decide) unit_pos)
  · have low := le_floorLog2_iff hn hd.ne' (53 + shift)
    have high := le_floorLog2_iff hn hd.ne' (54 + shift)
    rw [power] at low high
    have exponent : exponentOf num den = max (floorLog2 num den - 52) (-1074) := rfl
    rw [ofRatio_eq negative hn, isFinite_pack]
    by_cases same : exponentOf num den = maxExponent
    · -- the exponent is the greatest, so that the significand decides
      have scaled : scale num den (-exponentOf num den) = (num, 2 * unit) := by
        have double : den * 2 ^ (shift + 1) = 2 * unit := by
          rw [Nat.mul_comm, Nat.add_comm, power, Nat.pow_one]
        rw [same, greatest, ← double]
        exact scale_neg num den (shift + 1)
      have up := @le_roundQuotient_iff num (2 * unit) (2 ^ 53) (by omega) rfl (by decide)
      have most : num / (2 * unit) < 2 ^ 53 := by
        rw [Nat.div_lt_iff_lt_mul (by omega)]
        omega
      have rounded := roundQuotient_cases num (2 * unit)
      have bits : 2 ^ precision = 2 ^ 53 := rfl
      rw [scaled]
      dsimp only
      omega
    · omega

/-- What is rounded to a finite number in decimal notation. Digits beyond the bounds of the
exponent make no difference. -/
theorem isFinite_ofDecimal (negative : Bool) {cs : List Char} (digits : ∀ c ∈ cs, isDigit c = true)
    (k : Nat) :
    (ofDecimal negative cs (-k)).isFinite = true ↔ ofDigits cs < limit * 10 ^ k := by
  have digits : ∀ c ∈ cs.dropWhile (· == '0'), isDigit c = true := fun c member =>
    digits c ((List.dropWhile_sublist _).subset member)
  have leading : ∀ c ∈ (cs.dropWhile (· == '0')).head?, c ≠ '0' := fun c first => by
    have other := List.head?_dropWhile_not (· == '0') cs
    rw [Option.mem_def.mp first] at other
    simpa using other
  rw [← ofDigits_dropWhile]
  unfold ofDecimal
  generalize cs.dropWhile (· == '0') = significant at *
  dsimp only
  have bound : 0 ≤ decimalBound := by decide
  have zero : (ofRatio negative 0 1).isFinite = true := rfl
  have power_pos : 0 < 10 ^ k := Nat.pow_pos (by decide)
  split
  · rename_i small
    refine iff_of_true zero ?_
    have shorter : significant.length ≤ k := by
      obtain rfl | small := small
      · exact Nat.zero_le k
      · omega
    calc ofDigits significant < 10 ^ significant.length := ofDigits_lt digits
      _ ≤ 10 ^ k := Nat.pow_le_pow_right (by decide) shorter
      _ ≤ limit * 10 ^ k := Nat.le_mul_of_pos_left _ (by decide +kernel)
  · rename_i some
    split
    · rename_i large
      refine iff_of_false nofun (Nat.not_lt.mpr ?_)
      obtain ⟨c, cs, rfl⟩ := List.exists_cons_of_ne_nil (not_or.mp some).1
      have longer : decimalBound.toNat + k ≤ cs.length := by
        rw [List.length_cons] at large
        omega
      calc limit * 10 ^ k ≤ 10 ^ decimalBound.toNat * 10 ^ k :=
            Nat.mul_le_mul_right _ (by decide +kernel)
        _ = 10 ^ (decimalBound.toNat + k) := (Nat.pow_add ..).symm
        _ ≤ 10 ^ cs.length := Nat.pow_le_pow_right (by decide) longer
        _ ≤ ofDigits (c :: cs) := pow_le_ofDigits (digits c (.head _)) (leading c rfl)
    · split
      · obtain rfl : k = 0 := by omega
        simpa using isFinite_ofRatio negative (ofDigits significant) Nat.one_pos
      · simpa using isFinite_ofRatio negative (ofDigits significant) power_pos

end Binary64

end PseudoLang.Number
