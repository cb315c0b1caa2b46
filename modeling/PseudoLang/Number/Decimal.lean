import PseudoLang.Text.Digit

/-!
Decimal digits: reading them, and writing a decimal number down.
-/

namespace PseudoLang.Number

/-- The number that a sequence of digits stands for, most significant digit first. -/
def ofDigits (cs : List Char) : Nat :=
  cs.foldl (fun n c => 10 * n + Text.digitValue c) 0

/-- The decimal digits of a number, without leading zeros. -/
def digits (n : Nat) : List Char := Nat.toDigits 10 n

/-- An integer in decimal digits. -/
def integerDigits : Int → List Char
  | .ofNat n => digits n
  | .negSucc n => '-' :: digits (n + 1)

/-- The non-negative decimal number `digits · 10 ^ exponent`. -/
structure Decimal where
  digits : Nat
  exponent : Int
  deriving DecidableEq, Repr

namespace Decimal

/-- Which numbers are written without an exponent: those whose first digit stands for a power of
ten in this range. -/
structure Style where
  least : Int
  greatest : Int
  deriving DecidableEq, Repr

/-- Moves up to the given number of trailing zeros into the exponent. -/
def trimZeros : Nat → Decimal → Decimal
  | 0, d => d
  | count + 1, d =>
    if d.digits % 10 = 0 then trimZeros count ⟨d.digits / 10, d.exponent + 1⟩ else d

/-- The same number with the fewest digits. -/
def trim (d : Decimal) : Decimal :=
  if d.digits = 0 then ⟨0, 0⟩ else trimZeros (Number.digits d.digits).length d

def zeros (n : Int) : List Char := List.replicate n.toNat '0'

/-- Digits with a point after the first `whole` of them. A part without digits is written `0`. -/
def positional (cs : List Char) (whole : Int) : List Char :=
  if whole ≤ 0 then '0' :: '.' :: zeros (-whole) ++ cs
  else if cs.length ≤ whole.toNat then cs ++ zeros (whole - cs.length) ++ ['.', '0']
  else cs.take whole.toNat ++ '.' :: cs.drop whole.toNat

/-- Digits with a point after the first, and an exponent that always has a sign. -/
def scientific (cs : List Char) (exponent : Int) : List Char :=
  let significand :=
    match cs with
    | first :: second :: rest => first :: '.' :: second :: rest
    | cs => cs
  let sign := if exponent < 0 then '-' else '+'
  significand ++ 'e' :: sign :: Number.digits exponent.natAbs

/-- Writes a decimal number. -/
def render (style : Style) (d : Decimal) : List Char :=
  let cs := Number.digits d.digits
  let leading := d.exponent + cs.length - 1
  if style.least ≤ leading ∧ leading ≤ style.greatest then positional cs (leading + 1)
  else scientific cs leading

end Decimal

end PseudoLang.Number
