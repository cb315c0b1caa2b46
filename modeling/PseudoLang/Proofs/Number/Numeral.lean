import Mathlib.Data.List.Basic
import PseudoLang.Number.Shortest

/-!
How numbers are written. The digits of a number read back to it (`ofDigits_digits`) and have no
leading zero. A decimal is written as a whole part, a fraction and an exponent, of which the last
two may be missing (`numeral_render`); so is the shortest decimal for a floating-point number
(`numeral_shortest`).
-/

namespace PseudoLang.Number

open Text (isDigit digitValue)

/-! ## Digits -/

theorem isDigit_of_mem_digits {n : Nat} {c : Char} (h : c ∈ digits n) : isDigit c = true := by
  have digit := Nat.isDigit_of_mem_toDigits (by decide) (by decide) h
  simpa [Char.isDigit, isDigit, Char.le_def] using digit

/-- A run of characters ends where one of another class follows. -/
theorem span_append {p : Char → Bool} {cs rest : List Char} (each : ∀ c ∈ cs, p c = true)
    (stops : ∀ c ∈ rest.head?, p c = false) :
    (cs ++ rest).takeWhile p = cs ∧ (cs ++ rest).dropWhile p = rest := by
  rw [List.takeWhile_append_of_pos each, List.dropWhile_append_of_pos each]
  cases rest with
  | nil => simp
  | cons c rest => simp [stops c rfl]

theorem digits_ne_nil (n : Nat) : digits n ≠ [] := Nat.toDigits_ne_nil

/-- The digits of a number read back to it. -/
theorem ofDigits_digits (n : Nat) : ofDigits (digits n) = n :=
  Nat.ofDigitChars_ten_toDigits

/-- Only zero is written with a zero in front. -/
theorem eq_zero_of_head?_digits {n : Nat} (h : (digits n).head? = some '0') : n = 0 := by
  induction n using Nat.strongRecOn with
  | _ n ih =>
    by_cases small : n < 10
    · rw [digits, Nat.toDigits_of_lt_base small, List.head?_cons] at h
      exact Nat.digitChar_eq_zero.mp (Option.some.inj h)
    · have shorter : n / 10 < n := by omega
      rw [digits, Nat.toDigits_of_base_le (by decide) (by omega),
        List.head?_append_of_ne_nil _ Nat.toDigits_ne_nil] at h
      have := ih (n / 10) shorter h
      omega

/-! ## Numerals -/

/-- The digits before the point, without leading zeros. -/
structure WholePart (cs : List Char) : Prop where
  digits : ∀ c ∈ cs, isDigit c = true
  nonempty : cs ≠ []
  leading : cs.head? = some '0' → cs.length = 1

/-- Nothing, or a point with at least one digit after it. -/
inductive Fraction : List Char → Prop
  | none : Fraction []
  | some {cs : List Char} : (∀ c ∈ cs, isDigit c = true) → cs ≠ [] → Fraction ('.' :: cs)

/-- Nothing, or a power of ten with its sign. -/
inductive ExponentPart : List Char → Prop
  | none : ExponentPart []
  | some {sign : Char} (n : Nat) : sign = '-' ∨ sign = '+' → ExponentPart ('e' :: sign :: digits n)

/-- A number without sign in decimal digits. -/
inductive Numeral : List Char → Prop
  | mk {whole fraction exponent : List Char} : WholePart whole → Fraction fraction →
    ExponentPart exponent → Numeral (whole ++ (fraction ++ exponent))

theorem wholePart_singleton {c : Char} (h : isDigit c = true) : WholePart [c] :=
  ⟨by simpa using h, by simp, fun _ => rfl⟩

theorem wholePart_digits (n : Nat) : WholePart (digits n) := by
  refine ⟨fun c => isDigit_of_mem_digits, digits_ne_nil n, fun h => ?_⟩
  obtain rfl := eq_zero_of_head?_digits h
  rfl

theorem numeral_digits (n : Nat) : Numeral (digits n) := by
  simpa using Numeral.mk (wholePart_digits n) .none .none

namespace Decimal

theorem isDigit_of_mem_zeros {n : Int} {c : Char} (h : c ∈ zeros n) : isDigit c = true := by
  rw [List.eq_of_mem_replicate h]
  decide

/-- Digits around a point. No zeros may come after the only digit of zero. -/
theorem numeral_positional {n : Nat} {whole : Int} (h : n = 0 → whole ≤ 1) :
    Numeral (positional (Number.digits n) whole) := by
  have each (c : Char) (member : c ∈ Number.digits n) : isDigit c = true :=
    isDigit_of_mem_digits member
  have some := digits_ne_nil n
  unfold positional
  split
  · have fraction : Fraction ('.' :: (zeros (-whole) ++ Number.digits n)) := by
      refine .some (fun c member => ?_) (by simp [some])
      exact (List.mem_append.mp member).elim isDigit_of_mem_zeros (each c)
    simpa using Numeral.mk (wholePart_singleton (by decide)) fraction .none
  · rename_i positive
    split
    · have part : WholePart (Number.digits n ++ zeros (whole - (Number.digits n).length)) := by
        refine ⟨fun c member => ?_, by simp [some], fun leading => ?_⟩
        · exact (List.mem_append.mp member).elim (each c) isDigit_of_mem_zeros
        · rw [List.head?_append_of_ne_nil _ some] at leading
          obtain rfl := eq_zero_of_head?_digits leading
          have single : (Number.digits 0).length = 1 := rfl
          have none : (whole - (Number.digits 0).length).toNat = 0 := by
            have := h rfl
            omega
          rw [List.length_append, zeros, List.length_replicate, none, single]
      have fraction : Fraction ['.', '0'] := .some (by simp [isDigit]) (by simp)
      simpa using Numeral.mk part fraction .none
    · rename_i longer
      have part : WholePart ((Number.digits n).take whole.toNat) := by
        refine ⟨fun c member => each c (List.mem_of_mem_take member), ?_, fun leading => ?_⟩
        · rw [Ne, List.take_eq_nil_iff]
          exact not_or.mpr ⟨by omega, some⟩
        · rw [List.head?_take, if_neg (by omega)] at leading
          obtain rfl := eq_zero_of_head?_digits leading
          have single : (Number.digits 0).length = 1 := rfl
          omega
      have fraction : Fraction ('.' :: (Number.digits n).drop whole.toNat) := by
        refine .some (fun c member => each c (List.mem_of_mem_drop member)) ?_
        rw [Ne, List.drop_eq_nil_iff]
        omega
      simpa using Numeral.mk part fraction .none

theorem numeral_scientific (n : Nat) (exponent : Int) :
    Numeral (scientific (Number.digits n) exponent) := by
  have each (c : Char) (member : c ∈ Number.digits n) : isDigit c = true :=
    isDigit_of_mem_digits member
  have power : ExponentPart ('e' :: (if exponent < 0 then '-' else '+') ::
      Number.digits exponent.natAbs) := by
    refine .some _ ?_
    split
    · exact .inl rfl
    · exact .inr rfl
  unfold scientific
  match Number.digits n, digits_ne_nil n, each with
  | [first], _, each =>
    simpa using Numeral.mk (wholePart_singleton (each first (by simp))) .none power
  | first :: second :: rest, _, each =>
    have fraction : Fraction ('.' :: second :: rest) :=
      .some (fun c member => each c (.tail _ member)) (by simp)
    simpa using Numeral.mk (wholePart_singleton (each first (by simp))) fraction power

/-- A decimal is written as a numeral, if zero is written with no power of ten. -/
theorem numeral_render (style : Style) {d : Decimal} (h : d.digits = 0 → d.exponent = 0) :
    Numeral (d.render style) := by
  unfold render
  dsimp only
  split
  · refine numeral_positional fun zero => ?_
    have single : (Number.digits 0).length = 1 := rfl
    rw [h zero, zero, single]
    omega
  · exact numeral_scientific _ _

theorem trimZeros_ne_zero (count : Nat) {d : Decimal} (h : d.digits ≠ 0) :
    (trimZeros count d).digits ≠ 0 := by
  induction count generalizing d with
  | zero => exact h
  | succ count ih =>
    rw [trimZeros]
    split
    · refine ih (d := ⟨d.digits / 10, d.exponent + 1⟩) ?_
      show d.digits / 10 ≠ 0
      omega
    · exact h

theorem trim_zero {d : Decimal} (h : d.trim.digits = 0) : d.trim.exponent = 0 := by
  unfold trim at h ⊢
  split at h
  · rename_i zero
    rw [if_pos zero]
  · rename_i some
    exact absurd h (trimZeros_ne_zero _ some)

end Decimal

/-- The shortest decimal for a floating-point number is written as a numeral. -/
theorem numeral_shortest (style : Decimal.Style) (significand : Nat) (exponent : Int) :
    Numeral ((Binary64.shortest significand exponent).render style) := by
  refine Decimal.numeral_render style ?_
  unfold Binary64.shortest
  split
  · exact fun _ => rfl
  · exact Decimal.trim_zero

end PseudoLang.Number
