import PseudoLang.Number.Binary64

/-!
Programs in their final form, free of the punctuation and keywords that they were written with.
-/

namespace PseudoLang

open Number (Binary64)

/-! ## Expressions -/

mutual

inductive Expression
  /-- An operator between its operands. -/
  | binary (operator : String) (left right : Expression)
  /-- An operator before its operand. -/
  | unary (operator : String) (operand : Expression)
  /-- An atom with at least one subscript or call after it. -/
  | applied (head : Atom) (suffixes : List Suffix)
  | atom (value : Atom)

inductive Suffix
  | subscript (index : Expression)
  | call (arguments : List Expression)

inductive Atom
  | name (text : String)
  | num (value : Int64)
  | float (value : Binary64)
  | string (value : String)
  | bool (value : Bool)
  | group (inner : Expression)
  | list (items : List Expression)

end

/-! ## Types and declarations -/

/-- One level of an array type; a level without size is open. -/
structure ArraySuffix where
  size : Option Expression

inductive ElementType
  | bool
  | num
  | float
  | string
  | inputFile
  | outputFile
  /-- A procedure with the types of its parameters. -/
  | procedure (parameters : List (ElementType × List ArraySuffix))

/-- A name with its type, as a declaration or a parameter. -/
structure Predicate where
  name : String
  element : ElementType
  suffixes : List ArraySuffix

structure Declaration where
  predicate : Predicate
  initial : Option Expression

/-! ## Statements -/

/-- What a value is assigned to. In `a[1][2]` the head is `a[1]` and the index `2`. -/
inductive Target
  | name (text : String)
  | subscript (head index : Expression)

inductive Statement
  | ifThen (condition : Expression) (body : List Statement) (alternative : Option (List Statement))
  | whileLoop (condition : Expression) (body : List Statement)
  | doUntil (body : List Statement) (condition : Expression)
  | forLoop (counter : String) (start stop step : Expression) (body : List Statement)
  | caseOf (subject : Expression) (arms : List (Atom × List Statement))
    (default : Option (List Statement))
  | set (target : Target) (value : Expression)
  | input (targets : List String) (file : Option Atom)
  | output (values : List Expression) (file : Option Atom)
  | openFile (name : String) (path : Atom)
  | closeFile (name : String)
  | expression (value : Expression)

/-! ## Programs -/

/-- The body of an entry or a procedure: declarations, then statements. -/
structure Block where
  declarations : List Declaration
  statements : List Statement

structure Procedure where
  name : String
  parameters : List Predicate
  body : Block

/-- A whole source: the bodies of its entries and its procedures, each in source order. -/
structure Program where
  entries : List Block
  procedures : List Procedure

end PseudoLang
