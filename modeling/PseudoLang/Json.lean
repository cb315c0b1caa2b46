import PseudoLang.Number.Shortest

/-!
JSON values and the two forms in which they are written: compact, without any white space, and
pretty, with one item to a line. Members of objects keep their order.
-/

namespace PseudoLang

open Number (Binary64 Decimal)

/-- A JSON value. Floating-point numbers that JSON cannot express are written `null`. -/
inductive Json
  | null
  | bool (value : Bool)
  | integer (value : Int)
  | float (value : Binary64)
  | string (value : String)
  | array (items : List Json)
  | object (members : List (String × Json))
  deriving Repr, Inhabited

namespace Json

/-- A string array. -/
def strings (items : List String) : Json := array (items.map string)

/-- A value that may be missing. -/
def ofOption {α : Type} (write : α → Json) : Option α → Json
  | none => null
  | some a => write a

/-! ## Scalars -/

/-- How a character is written in a string. Only quotes, backslashes and control characters are
escaped. -/
def escape (c : Char) : List Char :=
  match c with
  | '"' => ['\\', '"']
  | '\\' => ['\\', '\\']
  | '\x08' => ['\\', 'b']
  | '\t' => ['\\', 't']
  | '\n' => ['\\', 'n']
  | '\x0c' => ['\\', 'f']
  | '\r' => ['\\', 'r']
  | c =>
    if c.toNat < 0x20 then
      ['\\', 'u', '0', '0', Nat.digitChar (c.toNat / 16), Nat.digitChar (c.toNat % 16)]
    else [c]

/-- A string in quotes. -/
def quote (s : String) : List Char := '"' :: s.toList.flatMap escape ++ ['"']

/-- Numbers from `0.00001` up to below `10 ^ 16` are written without an exponent. -/
def numberStyle : Decimal.Style := ⟨-5, 15⟩

/-- A floating-point number with the fewest digits that read back to it. -/
def floatText : Binary64 → List Char
  | .nan | .infinite _ => "null".toList
  | .finite negative significand exponent =>
    let text := (Binary64.shortest significand exponent).render numberStyle
    if negative then '-' :: text else text

/-! ## Writing

Each writer puts its text in front of the text `rest` that follows it. -/

mutual

/-- A value without white space. -/
def writeCompact : Json → List Char → List Char
  | null, rest => "null".toList ++ rest
  | bool true, rest => "true".toList ++ rest
  | bool false, rest => "false".toList ++ rest
  | integer n, rest => Number.integerDigits n ++ rest
  | float x, rest => floatText x ++ rest
  | string s, rest => quote s ++ rest
  | array items, rest => '[' :: writeItems items (']' :: rest)
  | object members, rest => '{' :: writeMembers members ('}' :: rest)

def writeItems : List Json → List Char → List Char
  | [], rest => rest
  | [item], rest => writeCompact item rest
  | item :: items, rest => writeCompact item (',' :: writeItems items rest)

def writeMembers : List (String × Json) → List Char → List Char
  | [], rest => rest
  | [(key, value)], rest => quote key ++ ':' :: writeCompact value rest
  | (key, value) :: members, rest =>
    quote key ++ ':' :: writeCompact value (',' :: writeMembers members rest)

end

/-- A line break, and two spaces for each level of nesting. -/
def newLine (level : Nat) (rest : List Char) : List Char :=
  '\n' :: (List.replicate (2 * level) ' ' ++ rest)

mutual

/-- A value at the given level of nesting, with every item and member on a line of its own. -/
def writePretty (level : Nat) : Json → List Char → List Char
  | null, rest => "null".toList ++ rest
  | bool true, rest => "true".toList ++ rest
  | bool false, rest => "false".toList ++ rest
  | integer n, rest => Number.integerDigits n ++ rest
  | float x, rest => floatText x ++ rest
  | string s, rest => quote s ++ rest
  | array [], rest => '[' :: ']' :: rest
  | array items, rest =>
    '[' :: newLine (level + 1) (writePrettyItems (level + 1) items (newLine level (']' :: rest)))
  | object [], rest => '{' :: '}' :: rest
  | object members, rest =>
    '{' :: newLine (level + 1)
      (writePrettyMembers (level + 1) members (newLine level ('}' :: rest)))

def writePrettyItems (level : Nat) : List Json → List Char → List Char
  | [], rest => rest
  | [item], rest => writePretty level item rest
  | item :: items, rest =>
    writePretty level item (',' :: newLine level (writePrettyItems level items rest))

def writePrettyMembers (level : Nat) : List (String × Json) → List Char → List Char
  | [], rest => rest
  | [(key, value)], rest => quote key ++ ':' :: ' ' :: writePretty level value rest
  | (key, value) :: members, rest =>
    quote key ++ ':' :: ' ' ::
      writePretty level value (',' :: newLine level (writePrettyMembers level members rest))

end

/-- The compact form. -/
def compact (value : Json) : String := String.ofList (writeCompact value [])

/-- The form with one item to a line. -/
def pretty (value : Json) : String := String.ofList (writePretty 0 value [])

/-- One of the two forms. -/
def render (compactly : Bool) (value : Json) : String :=
  if compactly then value.compact else value.pretty

end Json

end PseudoLang
