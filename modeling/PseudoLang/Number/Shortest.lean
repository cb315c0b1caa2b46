import PseudoLang.Number.Binary64
import PseudoLang.Number.Decimal

/-!
The shortest decimal that reads back to a given floating-point number. Among the decimals with
the fewest digits it is the one nearest to the number; of two equally near, the one with the even
last digit.
-/

namespace PseudoLang.Number.Binary64

/-- The exponent of the greatest power of ten that is at most `num / den`. -/
def floorLog10 (num den : Nat) : Int :=
  if den ≤ num then (digits (num / den)).length - 1
  else -((digits ((den - 1) / num)).length : Int)

/-- The ratio `num / (den · 10 ^ k)` as a pair of natural numbers. -/
def unscale10 (num den : Nat) (k : Int) : Nat × Nat :=
  if 0 ≤ k then (num, den * Nat.pow 10 k.toNat) else (num * Nat.pow 10 (-k).toNat, den)

/-- The numbers that round to `significand · 2 ^ exponent`, in units of `2 ^ (exponent - 2)`:
between the middles to both neighbours. Below a power of two the neighbour is nearer. The bounds
belong to the interval if the significand is even. -/
structure Interval where
  low : Nat
  middle : Nat
  high : Nat
  closed : Bool
  deriving DecidableEq, Repr

def interval (significand : Nat) (exponent : Int) : Interval where
  low :=
    if significand = Nat.pow 2 (precision - 1) ∧ minExponent < exponent then 4 * significand - 1
    else 4 * significand - 2
  middle := 4 * significand
  high := 4 * significand + 2
  closed := significand % 2 == 0

namespace Interval

/-- Whether the interval holds `num / den`. -/
def contains (i : Interval) (num den : Nat) : Bool :=
  if i.closed then i.low * den ≤ num && num ≤ i.high * den
  else i.low * den < num && num < i.high * den

/-- The distance of `num / den` from the middle, in units of `1 / den`. -/
def distance (i : Interval) (num den : Nat) : Nat :=
  ((num : Int) - i.middle * den).natAbs

/-- The better of two neighbours on a decimal grid on which `n` stands for `n · num / den`. -/
def choose (i : Interval) (num den n : Nat) : Option Nat :=
  let below := i.contains (n * num) den
  let above := i.contains ((n + 1) * num) den
  if below && above then
    let left := i.distance (n * num) den
    let right := i.distance ((n + 1) * num) den
    if left < right then some n
    else if right < left then some (n + 1)
    else if n % 2 = 0 then some n else some (n + 1)
  else if below then some n
  else if above then some (n + 1)
  else none

end Interval

/-- Tries grids of ever more digits, the first of them with steps of `10 ^ step`. -/
def shortestFrom (i : Interval) (exponent : Int) : Nat → Int → Decimal
  | 0, step => ⟨0, step⟩
  | fuel + 1, step =>
    -- `n · 10 ^ step` is `n · num / den` units of `2 ^ (exponent - 2)`
    let (den, num) := scale 1 1 (exponent - 2)
    let (den, num) := unscale10 den num step
    match i.choose num den (i.middle * den / num) with
    | some n => ⟨n, step⟩
    | none => shortestFrom i exponent fuel (step - 1)

/-- The number of digits that are enough for every finite number. -/
def maxDigits : Nat := 17

/-- The shortest decimal for the number `significand · 2 ^ exponent`. -/
def shortest (significand : Nat) (exponent : Int) : Decimal :=
  if significand = 0 then ⟨0, 0⟩
  else
    let (num, den) := scale significand 1 exponent
    (shortestFrom (interval significand exponent) exponent maxDigits (floorLog10 num den)).trim

end PseudoLang.Number.Binary64
