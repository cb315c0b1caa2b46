import PseudoLang.Position
import PseudoLang.Text.Quoted

/-!
Tokens: the units that the grammar is written over. Layout is part of them, since blocks are
marked by indentation: `indent`, `dedent` and `newline` tokens stand for it.
-/

namespace PseudoLang

open Text (quoted)

inductive Token.Kind
  | eof
  | name
  | number
  | float
  | string
  | bool
  /-- Operator symbols and the operators that are words. -/
  | operator
  /-- Reserved words. -/
  | keyword
  /-- Punctuation. -/
  | symbol
  | indent
  | dedent
  | newline
  deriving DecidableEq, Repr

/-- A token holds the decoded value of a string literal and otherwise the text as it was written. -/
structure Token where
  kind : Token.Kind
  value : String
  span : Span
  deriving DecidableEq, Repr

namespace Token

namespace Kind

/-- Every kind, in the order of declaration. -/
def all : List Kind :=
  [eof, name, number, float, string, bool, operator, keyword, symbol, indent, dedent, newline]

theorem mem_all (kind : Kind) : kind ∈ all := by cases kind <;> decide

/-- The name of a kind in listings of tokens. -/
def label : Kind → String
  | eof => "EOF"
  | name => "Name"
  | number => "Number"
  | float => "Float"
  | string => "String"
  | bool => "Bool"
  | operator => "Operator"
  | keyword => "Keyword"
  | symbol => "Symbol"
  | indent => "Indent"
  | dedent => "Dedent"
  | newline => "Newline"

/-- The kind with the given label. -/
def ofLabel? (text : String) : Option Kind := all.find? fun kind => kind.label == text

theorem ofLabel?_label (kind : Kind) : ofLabel? kind.label = some kind := by cases kind <;> decide

end Kind

/-- The name that a grammar matches a token of this kind and value by. Keywords and punctuation
go by their text, all else by a fixed name for the kind. -/
def typeNameOf (kind : Kind) (value : String) : String :=
  match kind with
  | .eof => "EOF"
  | .name => "name"
  | .number => "literal_num"
  | .float => "literal_float"
  | .string => "literal_string"
  | .bool => "literal_bool"
  | .operator => "op"
  | .keyword | .symbol => value
  | .indent => "indent"
  | .dedent => "dedent"
  | .newline => "newline"

def typeName (token : Token) : String := typeNameOf token.kind token.value

/-- The short form in messages: a string literal is quoted, layout and the end of the source are
named in capitals, all else stands as it was written. -/
def describe (token : Token) : String :=
  match token.kind with
  | .string => quoted token.value
  | .eof => "EOF"
  | .indent => "INDENT"
  | .dedent => "DEDENT"
  | .newline => "NEWLINE"
  | _ => token.value

/-- The line for this token in a listing: a value in parentheses, reserved text in backticks. -/
def listing (token : Token) : String :=
  match token.kind with
  | .string | .name | .number | .float | .bool | .operator =>
    token.kind.label ++ " (" ++ token.value ++ ")"
  | .keyword | .symbol => token.kind.label ++ " `" ++ token.value ++ "`"
  | .eof | .indent | .dedent | .newline => token.kind.label ++ " ()"

/-- The form with one field to a line. -/
def display (token : Token) : String :=
  "Token \x7b\nkind: " ++ token.kind.label ++ ",\nvalue: " ++ token.value ++ "\x7d"

end Token

end PseudoLang
