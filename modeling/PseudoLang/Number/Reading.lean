import PseudoLang.Number.Binary64
import PseudoLang.Number.Decimal

/-!
Reading numbers from text: integers of 64 bits, and floating-point numbers in decimal notation,
which are rounded correctly however many digits they have.
-/

namespace PseudoLang.Number

open Text (isDigit)

/-- An optional sign, and whether it is negative. -/
def readSign : List Char → Bool × List Char
  | '-' :: cs => (true, cs)
  | '+' :: cs => (false, cs)
  | cs => (false, cs)

/-- An integer: an optional sign and at least one digit. -/
def readInteger? (cs : List Char) : Option Int :=
  let (negative, cs) := readSign cs
  if cs ≠ [] ∧ cs.all isDigit then
    some (if negative then -(ofDigits cs : Int) else ofDigits cs)
  else none

/-- An integer that fits into 64 bits with a sign. -/
def readInt64? (text : String) : Option Int64 := do
  let n ← readInteger? text.toList
  if Int64.minValue.toInt ≤ n ∧ n ≤ Int64.maxValue.toInt then some (Int64.ofInt n) else none

namespace Binary64

/-- Powers of ten beyond these bounds are too large or too small for every finite number. -/
def decimalBound : Int := 400

/-- The number nearest to `± digits · 10 ^ exponent`. -/
def ofDecimal (negative : Bool) (cs : List Char) (exponent : Int) : Binary64 :=
  let significant := cs.dropWhile (· == '0')
  let leading := exponent + significant.length
  if significant = [] ∨ leading < -decimalBound then ofRatio negative 0 1
  else if decimalBound < leading then infinite negative
  else if 0 ≤ exponent then ofRatio negative (ofDigits significant * Nat.pow 10 exponent.toNat) 1
  else ofRatio negative (ofDigits significant) (Nat.pow 10 (-exponent).toNat)

/-- An exponent part: nothing, or `e` and an integer with an optional sign. -/
def readExponent? : List Char → Option Int
  | [] => some 0
  | c :: cs => if c = 'e' ∨ c = 'E' then readInteger? cs else none

/-- A decimal number without sign: digits, a point with digits, or both, and an exponent. -/
def readDecimal? (negative : Bool) (cs : List Char) : Option Binary64 := do
  let whole := cs.takeWhile isDigit
  let (decimals, rest) :=
    match cs.dropWhile isDigit with
    | '.' :: rest => (rest.takeWhile isDigit, rest.dropWhile isDigit)
    | rest => ([], rest)
  let exponent ← readExponent? rest
  if whole = [] ∧ decimals = [] then none
  else some (ofDecimal negative (whole ++ decimals) (exponent - decimals.length))

/-- A floating-point number. Infinity and the undefined number are written as words, in any
case. -/
def read? (text : String) : Option Binary64 :=
  let (negative, cs) := readSign text.toList
  let word := String.ofList (cs.map Char.toLower)
  if word = "inf" ∨ word = "infinity" then some (infinite negative)
  else if word = "nan" then some nan
  else readDecimal? negative cs

end Binary64

end PseudoLang.Number
