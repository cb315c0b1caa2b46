import PseudoLang.Json
import PseudoLang.Number.Reading

/-!
Reading JSON. `Json.read?` yields the value that a text denotes, and nothing for a text that is not
well formed. A number without fraction and exponent is an integer, any other the floating-point
number nearest to it.
-/

namespace PseudoLang.Json

open Number (Binary64 ofDigits)
open Text (isDigit hexValue?)

/-- Takes something off the front of a text, and leaves the rest. -/
abbrev Read (β : Type) := List Char → Option (β × List Char)

/-! ## White space -/

/-- White space may stand before and after every part of a text. -/
def isSpace (c : Char) : Bool := c == ' ' || c == '\t' || c == '\n' || c == '\r'

/-- The text from its first character on that is no white space. -/
def skipSpace (cs : List Char) : List Char := cs.dropWhile isSpace

/-! ## Strings -/

/-- The character that a letter after a backslash stands for. -/
def unescape? : Char → Option Char
  | '"' => some '"'
  | '\\' => some '\\'
  | '/' => some '/'
  | 'b' => some '\x08'
  | 'f' => some '\x0c'
  | 'n' => some '\n'
  | 'r' => some '\r'
  | 't' => some '\t'
  | _ => none

/-- A unit of 16 bits in hexadecimal digits. -/
def unit? (a b c d : Char) : Option Nat := do
  let a ← hexValue? a
  let b ← hexValue? b
  let c ← hexValue? c
  let d ← hexValue? d
  return ((a * 16 + b) * 16 + c) * 16 + d

/-- One more character in front of a string that has been read. -/
def prepend (c : Char) (found : Option (List Char × List Char)) :
    Option (List Char × List Char) :=
  found.map fun (cs, rest) => (c :: cs, rest)

/-- Reads a string after its opening quote. A character beyond the first 65536 is escaped as two
units, one of each half of the range that is set aside for this; control characters have to be
escaped. -/
def readString : Read (List Char)
  | [] => none
  | '"' :: rest => some ([], rest)
  | '\\' :: 'u' :: a :: b :: c :: d :: rest =>
    match unit? a b c d with
    | none => none
    | some unit =>
      if 0xD800 ≤ unit ∧ unit < 0xDC00 then
        match rest with
        | '\\' :: 'u' :: e :: f :: g :: h :: rest =>
          match unit? e f g h with
          | none => none
          | some low =>
            if 0xDC00 ≤ low ∧ low < 0xE000 then
              prepend (Char.ofNat (0x10000 + (unit - 0xD800) * 0x400 + (low - 0xDC00)))
                (readString rest)
            else none
        | _ => none
      else if 0xDC00 ≤ unit ∧ unit < 0xE000 then none
      else prepend (Char.ofNat unit) (readString rest)
  | '\\' :: c :: rest =>
    match unescape? c with
    | none => none
    | some c => prepend c (readString rest)
  | c :: rest => if c = '\\' ∨ c.toNat < 0x20 then none else prepend c (readString rest)

/-! ## Numbers and names -/

/-- The digits after the point of a number. -/
def fraction? : Read (List Char)
  | '.' :: cs =>
    if cs.takeWhile isDigit = [] then none else some (cs.takeWhile isDigit, cs.dropWhile isDigit)
  | cs => some ([], cs)

/-- The value of a number without its sign. -/
def unsigned? (negative : Bool) (text : List Char) : Option Json :=
  let whole := text.takeWhile isDigit
  if whole = [] ∨ (whole.head? = some '0' ∧ whole.length ≠ 1) then none
  else do
    let (decimals, rest) ← fraction? (text.dropWhile isDigit)
    let exponent ← Binary64.readExponent? rest
    if decimals = [] ∧ rest = [] then
      return integer (if negative then -(ofDigits whole : Int) else ofDigits whole)
    else return float (.ofDecimal negative (whole ++ decimals) (exponent - decimals.length))

/-- The value of a name or a number. -/
def scalar? (text : List Char) : Option Json :=
  if text = "null".toList then some null
  else if text = "true".toList then some (bool true)
  else if text = "false".toList then some (bool false)
  else
    match text with
    | '-' :: text => unsigned? true text
    | text => unsigned? false text

/-- The characters of names and numbers. -/
def isScalarPart (c : Char) : Bool := c.isAlphanum || c == '+' || c == '-' || c == '.'

/-! ## Values -/

/-- Reads up to `count` elements that are separated by commas, and the bracket after them. -/
def readSeparated {β : Type} (element : Read β) (close : Char) : Nat → Read (List β)
  | 0, _ => none
  | count + 1, cs => do
    let (first, rest) ← element cs
    match skipSpace rest with
    | [] => none
    | c :: rest =>
      if c = ',' then do
        let (others, rest) ← readSeparated element close count rest
        return (first :: others, rest)
      else if c = close then return ([first], rest)
      else none

/-- Reads the elements after an opening bracket, and the bracket after them. -/
def readEnclosed {β : Type} (element : Read β) (close : Char) (cs : List Char) :
    Option (List β × List Char) :=
  match skipSpace cs with
  | [] => none
  | c :: rest => if c = close then some ([], rest) else readSeparated element close cs.length cs

/-- Reads a key, a colon and a value. -/
def readMember (value : Read Json) : Read (String × Json) := fun cs => do
  let '"' :: rest := skipSpace cs | none
  let (key, rest) ← readString rest
  let ':' :: rest := skipSpace rest | none
  let (found, rest) ← value rest
  return ((String.ofList key, found), rest)

/-- Reads a value inside at most `room` others. -/
def readWithin : Nat → Read Json
  | 0, _ => none
  | room + 1, cs =>
    match skipSpace cs with
    | '"' :: rest => (readString rest).map fun (cs, rest) => (string (String.ofList cs), rest)
    | '[' :: rest =>
      (readEnclosed (readWithin room) ']' rest).map fun (items, rest) => (array items, rest)
    | '{' :: rest =>
      (readEnclosed (readMember (readWithin room)) '}' rest).map fun (members, rest) =>
        (object members, rest)
    | cs => (scalar? (cs.takeWhile isScalarPart)).map fun found =>
        (found, cs.dropWhile isScalarPart)

/-- The value that a text denotes, if it is well formed. -/
def read? (text : String) : Option Json := do
  let (value, rest) ← readWithin text.toList.length text.toList
  if skipSpace rest = [] then some value else none

end PseudoLang.Json
