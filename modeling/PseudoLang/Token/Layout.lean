import PseudoLang.Token.Lexeme

/-!
Layout: how line breaks and the white space at the start of a line become `indent`, `dedent` and
`newline` tokens. White space is compared as text, so a tab is not the same as any number of
spaces: a block is inside another if its indentation extends the other's.
-/

namespace PseudoLang

/-- The layout of the source read so far. -/
structure Layout where
  /-- The indentations of the blocks that are open, innermost first. None of them is empty, and
  the source itself, without indentation, is not listed. -/
  blocks : List (List Char)
  /-- How many brackets are open. Line breaks inside brackets mean nothing. -/
  brackets : Nat
  /-- A line break has been read that the next token has to answer. -/
  pending : Bool
  /-- The white space read last, unless a line break followed it. -/
  blanks : List Char
  deriving DecidableEq, Repr

namespace Layout

/-- The layout at the start of a source. -/
def initial : Layout := ⟨[], 0, false, []⟩

/-- The indentation of the innermost block. -/
def innermost : List (List Char) → List Char
  | [] => []
  | block :: _ => block

/-- The layout tokens that a line with the given indentation starts with, and the blocks that are
then open. A line continues a block that has its indentation, after the blocks inside it are
closed, or opens a new block inside the innermost one; no other indentation is possible. -/
def reindent (indentation : List Char) (closed : Bool) :
    List (List Char) → Option (List Token.Kind × List (List Char))
  | [] =>
    if indentation = [] then some ([.newline], [])
    else if closed then none
    else some ([.indent], [indentation])
  | block :: outer =>
    if block = indentation then some ([.newline], block :: outer)
    else if block <+: indentation then
      if closed then none else some ([.indent], indentation :: block :: outer)
    else if indentation <+: block then
      (reindent indentation true outer).map fun (kinds, blocks) => (.dedent :: kinds, blocks)
    else none

/-- The layout tokens due before the next token. -/
def settle (layout : Layout) : Except Cause (List Token.Kind × Layout) :=
  if layout.pending then
    match reindent layout.blanks false layout.blocks with
    | some (kinds, blocks) =>
      .ok (kinds, { layout with blocks, pending := false, blanks := [] })
    | none =>
      .error (.incompatibleDedent (String.ofList (innermost layout.blocks))
        (String.ofList layout.blanks))
  else .ok ([], layout)

/-- The number of open brackets after a token. A closing bracket too many is ignored. -/
def countBracket (brackets : Nat) : Token.Kind → String → Nat
  | .symbol, "(" | .symbol, "[" | .symbol, "\x7b" => brackets + 1
  | .symbol, ")" | .symbol, "]" | .symbol, "\x7d" => brackets - 1
  | _, _ => brackets

/-- The layout after a lexeme, and the layout tokens that come before it. -/
def read (layout : Layout) (lexeme : Lexeme) : Except Cause (List Token.Kind × Layout) :=
  match lexeme.form with
  | .comment => .ok ([], layout)
  | .lineBreak => .ok ([], { layout with pending := layout.brackets == 0, blanks := [] })
  | .blank => .ok ([], { layout with blanks := lexeme.text })
  | .content kind value => do
    let (kinds, layout) ← layout.settle
    return (kinds, { layout with brackets := countBracket layout.brackets kind value })

end Layout

end PseudoLang
