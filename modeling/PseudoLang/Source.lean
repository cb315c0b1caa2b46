import PseudoLang.Text.Bytes

/-!
Source texts and their lines.
-/

namespace PseudoLang.Source

open Text (byteCount)

/-- A source text with plain double quotes in place of typographic ones. -/
def straightenQuotes (source : String) : String :=
  String.ofList (source.toList.map fun c => if c = '\u201C' ∨ c = '\u201D' then '"' else c)

/-- A place in a source: a line, counted from one and with its line break, and a byte offset in
that line. -/
structure Place where
  line : Nat
  text : List Char
  column : Nat
  deriving DecidableEq, Repr

/-- The first line of a text, with its line break if it has one. -/
def firstLine (cs : List Char) : List Char :=
  cs.takeWhile (· != '\n') ++ (cs.dropWhile (· != '\n')).take 1

/-- Looks for the byte `offset` counted from `cs`, which stands at `column` in the line that
`start` begins with. The end of the source belongs to its last line. -/
def placeFrom (line column : Nat) (start : List Char) (offset : Nat) : List Char → Option Place
  | [] => if offset = 0 then some ⟨line, firstLine start, column⟩ else none
  | c :: rest =>
    if offset < c.utf8Size then some ⟨line, firstLine start, column + offset⟩
    else if c = '\n' then placeFrom (line + 1) 0 rest (offset - c.utf8Size) rest
    else placeFrom line (column + c.utf8Size) start (offset - c.utf8Size) rest

/-- The place of a byte offset, unless it lies beyond the end of the source. -/
def place? (source : List Char) (offset : Nat) : Option Place :=
  placeFrom 1 0 source offset source

end PseudoLang.Source
