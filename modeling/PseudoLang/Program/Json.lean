import PseudoLang.Json
import PseudoLang.Program

/-!
Programs as JSON. A structure is an object with its fields, an alternative an object with one
member named for it; what is missing is `null`.
-/

namespace PseudoLang

open Json (ofOption)

/-- An alternative with its content. -/
def Json.variant (name : String) (content : Json) : Json := .object [(name, content)]

/-! ## Expressions -/

mutual

def Expression.toJson : Expression → Json
  | .binary operator left right =>
    .variant "infix" (.object
      [("operator", .string operator), ("left", left.toJson), ("right", right.toJson)])
  | .unary operator operand =>
    .variant "prefix" (.object [("operator", .string operator), ("operand", operand.toJson)])
  | .applied head suffixes =>
    .variant "term" (.object
      [("head", head.toJson), ("suffixes", .array (Suffix.toJsonAll suffixes))])
  | .atom value => .variant "atom" value.toJson

def Suffix.toJson : Suffix → Json
  | .subscript index => .variant "subscript" index.toJson
  | .call arguments => .variant "call" (.array (Expression.toJsonAll arguments))

def Atom.toJson : Atom → Json
  | .name text => .variant "name" (.string text)
  | .num value => .variant "num" (.integer value.toInt)
  | .float value => .variant "float" (.float value)
  | .string value => .variant "string" (.string value)
  | .bool value => .variant "bool" (.bool value)
  | .group inner => .variant "group" inner.toJson
  | .list items => .variant "list" (.array (Expression.toJsonAll items))

def Expression.toJsonAll : List Expression → List Json
  | [] => []
  | expression :: expressions => expression.toJson :: Expression.toJsonAll expressions

def Suffix.toJsonAll : List Suffix → List Json
  | [] => []
  | suffix :: suffixes => suffix.toJson :: Suffix.toJsonAll suffixes

end

/-! ## Types and declarations -/

def ArraySuffix.toJson (suffix : ArraySuffix) : Json :=
  .object [("size", ofOption Expression.toJson suffix.size)]

/-- The levels of an array type. -/
def ArraySuffix.toJsonAll (suffixes : List ArraySuffix) : Json :=
  .array (suffixes.map ArraySuffix.toJson)

mutual

def ElementType.toJson : ElementType → Json
  | .bool => .string "bool"
  | .num => .string "num"
  | .float => .string "float"
  | .string => .string "string"
  | .inputFile => .string "input_file"
  | .outputFile => .string "output_file"
  | .procedure parameters => .variant "proc" (.array (ElementType.parametersToJson parameters))

def ElementType.parametersToJson : List (ElementType × List ArraySuffix) → List Json
  | [] => []
  | (element, suffixes) :: parameters =>
    .object [("element", element.toJson), ("suffixes", ArraySuffix.toJsonAll suffixes)] ::
      ElementType.parametersToJson parameters

end

def Predicate.toJson (predicate : Predicate) : Json :=
  .object
    [("name", .string predicate.name), ("element", predicate.element.toJson),
      ("suffixes", ArraySuffix.toJsonAll predicate.suffixes)]

def Declaration.toJson (declaration : Declaration) : Json :=
  .object
    [("predicate", declaration.predicate.toJson),
      ("initial", ofOption Expression.toJson declaration.initial)]

/-! ## Statements -/

def Target.toJson : Target → Json
  | .name text => .variant "variable" (.object [("name", .string text)])
  | .subscript head index =>
    .variant "subscript" (.object [("head", head.toJson), ("index", index.toJson)])

/-- The statements of a body as an object. -/
def Json.body (statements : List Json) : Json := .object [("statements", .array statements)]

mutual

def Statement.toJson : Statement → Json
  | .ifThen condition body alternative =>
    .variant "if" (.object
      [("condition", condition.toJson), ("body", .body (Statement.toJsonAll body)),
        ("alternative", Statement.bodyToJson alternative)])
  | .whileLoop condition body =>
    .variant "while" (.object
      [("condition", condition.toJson), ("body", .body (Statement.toJsonAll body))])
  | .doUntil body condition =>
    .variant "do_until" (.object
      [("body", .body (Statement.toJsonAll body)), ("condition", condition.toJson)])
  | .forLoop counter start stop step body =>
    .variant "for" (.object
      [("variable", .string counter), ("start", start.toJson), ("stop", stop.toJson),
        ("step", step.toJson), ("body", .body (Statement.toJsonAll body))])
  | .caseOf subject arms default =>
    .variant "case" (.object
      [("subject", subject.toJson), ("cases", .array (Statement.armsToJson arms)),
        ("default", Statement.bodyToJson default)])
  | .set target value =>
    .variant "set" (.object [("target", target.toJson), ("value", value.toJson)])
  | .input targets file =>
    .variant "input" (.object
      [("targets", .strings targets), ("file", ofOption Atom.toJson file)])
  | .output values file =>
    .variant "output" (.object
      [("values", .array (values.map Expression.toJson)), ("file", ofOption Atom.toJson file)])
  | .openFile name path =>
    .variant "open" (.object [("name", .string name), ("path", path.toJson)])
  | .closeFile name => .variant "close" (.object [("name", .string name)])
  | .expression value => .variant "expression" (.object [("value", value.toJson)])

def Statement.toJsonAll : List Statement → List Json
  | [] => []
  | statement :: statements => statement.toJson :: Statement.toJsonAll statements

/-- A body that may be missing. -/
def Statement.bodyToJson : Option (List Statement) → Json
  | none => .null
  | some statements => .body (Statement.toJsonAll statements)

def Statement.armsToJson : List (Atom × List Statement) → List Json
  | [] => []
  | (test, body) :: arms =>
    .object [("test", test.toJson), ("body", .body (Statement.toJsonAll body))] ::
      Statement.armsToJson arms

end

/-! ## Programs -/

def Block.toJson (block : Block) : Json :=
  .object
    [("declarations", .array (block.declarations.map Declaration.toJson)),
      ("statements", .array (block.statements.map Statement.toJson))]

def Procedure.toJson (procedure : Procedure) : Json :=
  .object
    [("name", .string procedure.name),
      ("parameters", .array (procedure.parameters.map Predicate.toJson)),
      ("body", procedure.body.toJson)]

def Program.toJson (program : Program) : Json :=
  .object
    [("entries", .array (program.entries.map fun body => .object [("body", body.toJson)])),
      ("procedures", .array (program.procedures.map Procedure.toJson))]

end PseudoLang
