import PseudoLang.Error
import PseudoLang.Number.Reading
import PseudoLang.Program
import PseudoLang.SyntaxTree

/-!
From syntax trees to programs. Each function below reads the tree of one rule of the grammar, whose
form it relies on: what is optional is a sequence of at most one item, and of a series every other
item is a separator. Any other form is an error that names the rule.
-/

namespace PseudoLang

/-- A tree that does not have the form its rule gives it. -/
def SyntaxTree.unexpected (rule : String) (tree : SyntaxTree) : Cause :=
  .unexpectedShape rule tree.shape

/-- The text of a token. -/
def SyntaxTree.text (rule : String) : SyntaxTree → Except Cause String
  | .token _ value => .ok value
  | tree => .error (tree.unexpected rule)

/-- A number read from a text. -/
def Number.ofText {α : Type} (read : String → Option α) (text : String) : Except Cause α :=
  match read text with
  | some value => .ok value
  | none => .error (.numberParseError text)

/-! ## Expressions -/

mutual

def Expression.ofTree : SyntaxTree → Except Cause Expression
  | .binary operator left right => do
    return .binary operator (← Expression.ofTree left) (← Expression.ofTree right)
  | .unary operator operand => return .unary operator (← Expression.ofTree operand)
  | .tagged tag value =>
    if tag = "term" then Expression.ofTerm value
    else .error (.unexpectedShape "expr" "tagged")
  | tree => .error (tree.unexpected "expr")

/-- An atom with the suffixes after it. -/
def Expression.ofTerm : SyntaxTree → Except Cause Expression
  | .seq [head, suffixes] => do
    let head ← Atom.ofTree head
    match suffixes with
    | .seq [] => return .atom head
    | .seq items => return .applied head (← Suffix.ofTrees items)
    | other => .error (other.unexpected "term")
  | tree => .error (tree.unexpected "term")

def Suffix.ofTree : SyntaxTree → Except Cause Suffix
  | .tagged tag value =>
    match tag with
    | "subscript" => return .subscript (← Expression.ofTree value)
    | "call" =>
      match value with
      | .seq items => return .call (← Expression.ofTrees items)
      | other => .error (other.unexpected "call")
    | _ => .error (.unexpectedShape "suffix" "tagged")
  | tree => .error (tree.unexpected "suffix")

def Atom.ofTree : SyntaxTree → Except Cause Atom
  | .tagged tag value =>
    match tag with
    | "group" => return .group (← Expression.ofTree value)
    | "list" =>
      match value with
      | .seq items => return .list (← Expression.ofTrees items)
      | other => .error (other.unexpected "list")
    | "name" => return .name (← value.text "atom")
    | "num" => return .num (← Number.ofText Number.readInt64? (← value.text "atom"))
    | "float" => return .float (← Number.ofText Number.Binary64.read? (← value.text "atom"))
    | "string" => return .string (← value.text "atom")
    | "bool" => return .bool ((← value.text "atom") == "true")
    | _ => .error (.unexpectedShape "atom" "tagged")
  | tree => .error (tree.unexpected "atom")

def Expression.ofTrees : List SyntaxTree → Except Cause (List Expression)
  | [] => return []
  | tree :: trees => return (← Expression.ofTree tree) :: (← Expression.ofTrees trees)

def Suffix.ofTrees : List SyntaxTree → Except Cause (List Suffix)
  | [] => return []
  | tree :: trees => return (← Suffix.ofTree tree) :: (← Suffix.ofTrees trees)

end

/-! ## Types and declarations -/

/-- What is optional is a sequence of at most one item. -/
def SyntaxTree.part {α : Type} (rule : String) (read : SyntaxTree → Except Cause α) :
    SyntaxTree → Except Cause (Option α)
  | .seq [] => return none
  | .seq [tree] => return some (← read tree)
  | tree => .error (tree.unexpected rule)

/-- Every item of a sequence. -/
def SyntaxTree.items (rule : String) : SyntaxTree → Except Cause (List SyntaxTree)
  | .seq trees => .ok trees
  | tree => .error (tree.unexpected rule)

/-- Every other item, from the first on: the items of a series without the separators. -/
def SyntaxTree.primaries : List SyntaxTree → List SyntaxTree
  | [] => []
  | [tree] => [tree]
  | tree :: _ :: trees => tree :: primaries trees

def ArraySuffix.ofTree (tree : SyntaxTree) : Except Cause ArraySuffix := do
  return ⟨← tree.part "arraytypesuffix" Expression.ofTree⟩

def ArraySuffix.ofSeries (tree : SyntaxTree) : Except Cause (List ArraySuffix) := do
  (← tree.items "arraytypesuffix").mapM ArraySuffix.ofTree

mutual

def ElementType.ofTree : SyntaxTree → Except Cause ElementType
  | .tagged tag value =>
    match tag with
    | "bool" => return .bool
    | "num" => return .num
    | "float" => return .float
    | "string" => return .string
    | "InputFile" => return .inputFile
    | "OutputFile" => return .outputFile
    | "proc" =>
      match value with
      | .seq [_, parameters] =>
        match parameters with
        | .seq trees => return .procedure (← ElementType.ofParameters trees)
        | other => .error (other.unexpected "proctype")
      | other => .error (other.unexpected "proctype")
    | _ => .error (.unexpectedShape "elementtype" "tagged")
  | tree => .error (tree.unexpected "elementtype")

/-- The parameters of a procedure type. -/
def ElementType.ofParameters :
    List SyntaxTree → Except Cause (List (ElementType × List ArraySuffix))
  | [] => return []
  | .seq [element, suffixes] :: trees => do
    let element ← ElementType.ofTree element
    let suffixes ← ArraySuffix.ofSeries suffixes
    return (element, suffixes) :: (← ElementType.ofParameters trees)
  | tree :: _ => .error (tree.unexpected "proctypeparam")

end

def Predicate.ofTree : SyntaxTree → Except Cause Predicate
  | .seq [element, name, suffixes] => do
    let name ← name.text "predicate"
    let element ← ElementType.ofTree element
    return ⟨name, element, ← ArraySuffix.ofSeries suffixes⟩
  | tree => .error (tree.unexpected "predicate")

/-- The value that a declaration assigns. -/
def Declaration.initialOf : SyntaxTree → Except Cause Expression
  | .seq [_, value] => Expression.ofTree value
  | tree => .error (tree.unexpected "decline")

def Declaration.ofTree : SyntaxTree → Except Cause Declaration
  | .seq [predicate, initial] => do
    let initial ← initial.part "decline" Declaration.initialOf
    return ⟨← Predicate.ofTree predicate, initial⟩
  | tree => .error (tree.unexpected "decline")

/-! ## Statements -/

/-- The atom of a clause that names a file. -/
def Atom.ofClause (rule : String) : SyntaxTree → Except Cause Atom
  | .seq [_, atom] => Atom.ofTree atom
  | tree => .error (tree.unexpected rule)

/-- What a value is assigned to. All subscripts but the last belong to the head. -/
def Target.ofParts (head : String) (subscripts : List Expression) : Target :=
  match subscripts.getLast?, subscripts.dropLast with
  | none, _ => .name head
  | some index, [] => .subscript (.atom (.name head)) index
  | some index, before => .subscript (.applied (.name head) (before.map .subscript)) index

def Target.ofTree : SyntaxTree → Except Cause Target
  | .seq [head, subscripts] => do
    let head ← head.text "lval"
    return .ofParts head (← Expression.ofTrees (← subscripts.items "lval"))
  | tree => .error (tree.unexpected "lval")

mutual

def Statement.ofTree : SyntaxTree → Except Cause Statement
  | .tagged tag value =>
    match tag with
    | "if" =>
      match value with
      | .seq [_, condition, _, body, alternative, _, _] => do
        let alternative ← Statement.ofAlternative alternative
        let condition ← Expression.ofTree condition
        return .ifThen condition (← Statement.ofBody body) alternative
      | other => .error (other.unexpected "if")
    | "while" =>
      match value with
      | .seq [_, condition, body, _, _] => do
        let condition ← Expression.ofTree condition
        return .whileLoop condition (← Statement.ofBody body)
      | other => .error (other.unexpected "while")
    | "for" =>
      match value with
      | .seq [_, counter, _, start, _, stop, _, step, body, _, _] => do
        let counter ← counter.text "for"
        let start ← Expression.ofTree start
        let stop ← Expression.ofTree stop
        let step ← Expression.ofTree step
        return .forLoop counter start stop step (← Statement.ofBody body)
      | other => .error (other.unexpected "for")
    | "case" =>
      match value with
      | .seq [_, subject, _, arms, _, _, _] =>
        match arms with
        | .pair left right => do
          let arms ← Statement.ofArms left
          let default ← Statement.ofDefault right
          return .caseOf (← Expression.ofTree subject) arms default
        | other => .error (other.unexpected "case")
      | other => .error (other.unexpected "case")
    | "do" =>
      match value with
      | .seq [_, body, _, _, condition] => do
        let body ← Statement.ofBody body
        return .doUntil body (← Expression.ofTree condition)
      | other => .error (other.unexpected "do")
    | "set" =>
      match value with
      | .seq [_, target, _, value] => do
        let target ← Target.ofTree target
        return .set target (← Expression.ofTree value)
      | other => .error (other.unexpected "set")
    | "input" =>
      match value with
      | .seq [_, names, file] => do
        let names ← (SyntaxTree.primaries (← names.items "input")).mapM (SyntaxTree.text "input")
        return .input names (← file.part "input" (Atom.ofClause "input"))
      | other => .error (other.unexpected "input")
    | "output" =>
      match value with
      | .seq [_, values, file] => do
        let values ← Expression.ofTrees (SyntaxTree.primaries (← values.items "output"))
        return .output values (← file.part "output" (Atom.ofClause "output"))
      | other => .error (other.unexpected "output")
    | "open" =>
      match value with
      | .seq [_, name, path] => do
        let name ← name.text "open"
        return .openFile name (← Atom.ofTree path)
      | other => .error (other.unexpected "open")
    | "close" =>
      match value with
      | .seq [_, name] => return .closeFile (← name.text "close")
      | other => .error (other.unexpected "close")
    | "exprstmt" => return .expression (← Expression.ofTerm value)
    | _ => .error (.unexpectedShape "stmt" "tagged")
  | tree => .error (tree.unexpected "stmt")

/-- A body: a series of statements, or one. -/
def Statement.ofBody : SyntaxTree → Except Cause (List Statement)
  | .tagged tag value =>
    match tag with
    | "indented" =>
      match value with
      | .seq trees => Statement.ofSeries trees
      | other => .error (other.unexpected "body")
    | "unindented" => return [← Statement.ofTree value]
    | _ => .error (.unexpectedShape "body" "tagged")
  | tree => .error (tree.unexpected "body")

/-- The statements of a series, without the separators between them. -/
def Statement.ofSeries : List SyntaxTree → Except Cause (List Statement)
  | [] => return []
  | [tree] => return [← Statement.ofTree tree]
  | tree :: _ :: trees => return (← Statement.ofTree tree) :: (← Statement.ofSeries trees)

/-- The body after `else`, if there is one. -/
def Statement.ofAlternative : SyntaxTree → Except Cause (Option (List Statement))
  | .seq [] => return none
  | .seq [clause] =>
    match clause with
    | .seq [_, _, body] => return some (← Statement.ofBody body)
    | other => .error (other.unexpected "else")
  | tree => .error (tree.unexpected "if")

/-- The cases of a `case` statement, if there are any. -/
def Statement.ofArms : Option SyntaxTree → Except Cause (List (Atom × List Statement))
  | none => return []
  | some (.seq trees) => Statement.ofArmSeries trees
  | some tree => .error (tree.unexpected "case")

def Statement.ofArm : SyntaxTree → Except Cause (Atom × List Statement)
  | .seq [test, _, body] => do
    let test ← Atom.ofTree test
    return (test, ← Statement.ofBody body)
  | tree => .error (tree.unexpected "case_case")

/-- The cases of a series, without the separators between them. -/
def Statement.ofArmSeries : List SyntaxTree → Except Cause (List (Atom × List Statement))
  | [] => return []
  | [tree] => return [← Statement.ofArm tree]
  | tree :: _ :: trees => return (← Statement.ofArm tree) :: (← Statement.ofArmSeries trees)

/-- The body of the default case, if there is one. -/
def Statement.ofDefault : Option SyntaxTree → Except Cause (Option (List Statement))
  | none => return none
  | some (.seq [_, _, body]) => return some (← Statement.ofBody body)
  | some tree => .error (tree.unexpected "default_case")

end

/-! ## Programs -/

/-- The lines of a declaration part. -/
def Declaration.ofLines : SyntaxTree → Except Cause (List Declaration)
  | .seq [_, lines] => do (← lines.items "declarations").mapM Declaration.ofTree
  | tree => .error (tree.unexpected "declarations")

/-- A block. In its tree the first statement stands alone; every other one comes after a line
break. -/
def Block.ofTree : SyntaxTree → Except Cause Block
  | .seq [_, declarations, first, rest, _, _] => do
    let declarations ← declarations.part "mainbody" Declaration.ofLines
    let first ← first.part "mainbody" Statement.ofTree
    let rest ← Statement.ofSeries ((← rest.items "mainbody").drop 1)
    return ⟨declarations.getD [], first.toList ++ rest⟩
  | tree => .error (tree.unexpected "mainbody")

def Block.ofEntry : SyntaxTree → Except Cause Block
  | .seq [_, body, _] => Block.ofTree body
  | tree => .error (tree.unexpected "start")

def Procedure.ofTree : SyntaxTree → Except Cause Procedure
  | .seq [name, parameters, body, _] => do
    let name ← name.text "procedure"
    let parameters ← (← parameters.items "procedure").mapM Predicate.ofTree
    return ⟨name, parameters, ← Block.ofTree body⟩
  | tree => .error (tree.unexpected "procedure")

namespace Program

/-- The deepest tree that is read: as deep as rules nest, with an expression at the end. -/
def maxTreeDepth : Nat := 1256

/-- A program with one more top-level item. -/
def add (program : Program) : SyntaxTree → Except Cause Program
  | .tagged tag value =>
    match tag with
    | "start" => return { program with entries := program.entries ++ [← Block.ofEntry value] }
    | "procedure" =>
      return { program with procedures := program.procedures ++ [← Procedure.ofTree value] }
    | "newline" => return program
    | _ => .error (.unexpectedShape "file" "tagged")
  | tree => .error (tree.unexpected "file")

/-- The program of the tree of a whole source. -/
def ofTree (tree : SyntaxTree) : Except Cause Program := do
  if maxTreeDepth < tree.depth then throw (.nestingTooDeep maxTreeDepth)
  (← tree.items "file").foldlM add ⟨[], []⟩

end Program

end PseudoLang
