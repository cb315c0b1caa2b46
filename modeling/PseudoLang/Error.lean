import PseudoLang.Position
import PseudoLang.Text.Quoted

/-!
Everything that can be wrong with a source, a grammar table or a syntax tree. A `Cause` says what
is wrong; its wording is here and nowhere else. An `Error` adds the place.
-/

namespace PseudoLang

open Text (quoted quotedList bracketed)

/-- What went wrong. -/
inductive Cause
  /-- No lexeme starts with this character. -/
  | unrecognisedToken (token : String)
  /-- A number is followed by one more decimal point. -/
  | malformedNumber (token : String)
  | invalidString (message : String)
  /-- A line goes back to an indentation that no enclosing block has. -/
  | incompatibleDedent (source target : String)
  /-- A chain of plain aliases leads back to itself. -/
  | trivialCycle (rule : String)
  | unknownRule (rule : String)
  | unknownFilter (filter : String)
  /-- A rule failed where it had to match: the tokens around the place and the open rules. -/
  | syntaxError (message : String) (before after stack : List String)
  | nestingTooDeep (limit : Nat)
  /-- Tokens are left over after the last top-level item. -/
  | trailingInput (token : String)
  /-- A sequence of terms and operators has no reading as an expression. -/
  | contradiction (message : String) (positions : List Nat) (masks : List UInt8)
  | associationError (remaining : Nat)
  /-- A syntax tree does not have the form that its rule gives it. -/
  | unexpectedShape (rule found : String)
  | numberParseError (token : String)
  deriving DecidableEq, Repr

namespace Cause

/-- The name of the kind of error. -/
def name : Cause → String
  | unrecognisedToken _ => "UnrecognisedToken"
  | malformedNumber _ => "MalformedNumber"
  | invalidString _ => "InvalidString"
  | incompatibleDedent .. => "IncompatibleDedent"
  | trivialCycle _ => "TrivialCycle"
  | unknownRule _ => "UnknownRule"
  | unknownFilter _ => "UnknownFilter"
  | syntaxError .. => "SyntaxError"
  | nestingTooDeep _ => "NestingTooDeep"
  | trailingInput _ => "TrailingInput"
  | contradiction .. => "Contradiction"
  | associationError _ => "AssociationError"
  | unexpectedShape .. => "UnexpectedShape"
  | numberParseError _ => "NumberParseError"

/-- The full message, for a reader who knows the grammar. -/
def message : Cause → String
  | unrecognisedToken token => "unrecognised token: " ++ quoted token
  | malformedNumber token => "multiple decimal points in number: " ++ quoted token
  | invalidString message => "invalid string literal: " ++ message
  | incompatibleDedent source target =>
    "incompatible dedent detected from " ++ quoted source ++ " to " ++ quoted target
  | trivialCycle rule => "definition of rule " ++ quoted rule ++ " is part of a trivial cycle"
  | unknownRule rule => "reference to undefined rule " ++ quoted rule
  | unknownFilter filter => "reference to undefined filter " ++ quoted filter
  | syntaxError message before after stack =>
    message ++ " (rules: " ++ quotedList stack ++ ", before: " ++ quotedList before ++
      ", after: " ++ quotedList after ++ ")"
  | nestingTooDeep limit => "nesting exceeds " ++ toString limit ++ " rule evaluations"
  | trailingInput token => "unexpected token after the last declaration: " ++ quoted token
  | contradiction message positions masks =>
    "term-infix-prefix resolution failed: " ++ message ++
      " (positions " ++ bracketed (positions.map toString) ++
      ", masks " ++ bracketed (masks.map fun mask => toString mask.toNat) ++ ")"
  | associationError remaining =>
    "association error: " ++ toString remaining ++ " terms left after resolving operators"
  | unexpectedShape rule found =>
    "unexpected raw tree shape for rule " ++ quoted rule ++ ": " ++ found
  | numberParseError token => "error parsing number: " ++ quoted token

/-- The hint for every fault of a grammar table. -/
def malformedTable : String := "The grammar table itself is malformed"

/-- A short hint for the author of the source, where there is one. -/
def tip : Cause → Option String
  | unrecognisedToken _ => none
  | malformedNumber token =>
    some ("Invalid number: `" ++ token ++ "`, a number may contain at most one decimal point")
  | invalidString message => some ("Invalid string literal: " ++ message)
  | incompatibleDedent source target =>
    some ("Dedent from " ++ quoted source ++ " to " ++ quoted target ++
      " does not return to an enclosing indentation level")
  | trivialCycle _ | unknownRule _ | unknownFilter _ => some malformedTable
  | syntaxError message _ _ stack =>
    match stack.getLast? with
    | some rule => some (message ++ " (while parsing `" ++ rule ++ "`)")
    | none => some message
  | nestingTooDeep limit =>
    some ("Source nests deeper than " ++ toString limit ++ " rule evaluations")
  | trailingInput token =>
    some ("Unexpected token: `" ++ token ++ "`, expected `start`, a procedure or end of file")
  | contradiction message .. => some message
  | associationError _ => none
  | unexpectedShape .. => none
  | numberParseError token =>
    some ("Invalid number: `" ++ token ++ "`, is it above the integer limit?")

end Cause

/-- A cause and the place in the source that it belongs to. -/
structure Error where
  cause : Cause
  position : Position
  deriving DecidableEq, Repr

namespace Error

/-- An error that no place in a source belongs to. -/
def nowhere (cause : Cause) : Error := ⟨cause, .nowhere⟩

def name (error : Error) : String := error.cause.name

def tip (error : Error) : Option String := error.cause.tip

/-- The full message followed by the file and the byte offset. -/
def message (error : Error) : String :=
  error.cause.message ++ " at " ++ error.position.file ++ ":" ++
    toString error.position.offset.toNat

end Error

end PseudoLang
