import PseudoLang.Program
import PseudoLang.Proofs.Precedence.Canonical
import PseudoLang.Proofs.Token.Sign

/-!
Programs written out as the grammar lists them, and which programs can be written out at all. Every
body is indented, a line break stands before every keyword that closes a body, and a literal may be
any text that is read as its value.
-/

namespace PseudoLang

open Precedence (OperatorTree)
open Sign (separated)

/-! ## Expressions -/

namespace Sign

/-- Signs between two marks. -/
def between (left : String) (signs : List Sign) (right : String) : List Sign :=
  [[mark left], signs, [mark right]].flatten

end Sign

open Sign (between)

mutual

def Expression.signs : Expression → List Sign
  | .binary operator left right => left.signs ++ .operator operator :: right.signs
  | .unary operator operand => .operator operator :: operand.signs
  | .applied head suffixes => head.signs ++ (Suffix.signsOfEach suffixes).flatten
  | .atom value => value.signs

def Suffix.signs : Suffix → List Sign
  | .subscript index => between "[" index.signs "]"
  | .call arguments => between "(" (separated (.mark ",") (Expression.signsOfEach arguments)) ")"

def Atom.signs : Atom → List Sign
  | .name text => [.name text]
  | .num value => [.num value]
  | .float value => [.float value]
  | .string value => [.string value]
  | .bool value => [.bool value]
  | .group inner => between "(" inner.signs ")"
  | .list items => between "[" (separated (.mark ",") (Expression.signsOfEach items)) "]"

def Expression.signsOfEach : List Expression → List (List Sign)
  | [] => []
  | expression :: expressions => expression.signs :: Expression.signsOfEach expressions

def Suffix.signsOfEach : List Suffix → List (List Sign)
  | [] => []
  | suffix :: suffixes => suffix.signs :: Suffix.signsOfEach suffixes

end

theorem Expression.signsOfEach_eq (expressions : List Expression) :
    Expression.signsOfEach expressions = expressions.map Expression.signs := by
  induction expressions with
  | nil => rfl
  | cons expression expressions ih => rw [Expression.signsOfEach, ih, List.map_cons]

theorem Suffix.signsOfEach_eq (suffixes : List Suffix) :
    Suffix.signsOfEach suffixes = suffixes.map Suffix.signs := by
  induction suffixes with
  | nil => rfl
  | cons suffix suffixes ih => rw [Suffix.signsOfEach, ih, List.map_cons]

/-- The operators of an expression, down to its terms. Groups and other atoms are terms, whatever
they contain. -/
def Expression.skeleton : Expression → OperatorTree Expression
  | .binary operator left right => .binary operator left.skeleton right.skeleton
  | .unary operator operand => .unary operator operand.skeleton
  | term => .term term

/-- The operators are those of the language, and each has the operands that it would be given. -/
def Expression.Canonical (expression : Expression) : Prop :=
  expression.skeleton.Known .language ∧ expression.skeleton.Canonical .language

mutual

def Expression.WellFormed : Expression → Prop
  | .binary operator left right =>
    Expression.Canonical (.binary operator left right) ∧ left.WellFormed ∧ right.WellFormed
  | .unary operator operand =>
    Expression.Canonical (.unary operator operand) ∧ operand.WellFormed
  | .applied head suffixes =>
    suffixes ≠ [] ∧ head.WellFormed ∧ Suffix.AllWellFormed suffixes
  | .atom value => value.WellFormed

def Suffix.WellFormed : Suffix → Prop
  | .subscript index => index.WellFormed
  | .call arguments => Expression.AllWellFormed arguments

def Atom.WellFormed : Atom → Prop
  | .group inner => inner.WellFormed
  | .list items => Expression.AllWellFormed items
  | _ => True

def Expression.AllWellFormed : List Expression → Prop
  | [] => True
  | expression :: expressions => expression.WellFormed ∧ Expression.AllWellFormed expressions

def Suffix.AllWellFormed : List Suffix → Prop
  | [] => True
  | suffix :: suffixes => suffix.WellFormed ∧ Suffix.AllWellFormed suffixes

end

theorem Expression.allWellFormed_iff {expressions : List Expression} :
    Expression.AllWellFormed expressions ↔ ∀ expression ∈ expressions, expression.WellFormed := by
  induction expressions with
  | nil => simp [Expression.AllWellFormed]
  | cons expression expressions ih => simp [Expression.AllWellFormed, ih]

theorem Suffix.allWellFormed_iff {suffixes : List Suffix} :
    Suffix.AllWellFormed suffixes ↔ ∀ suffix ∈ suffixes, suffix.WellFormed := by
  induction suffixes with
  | nil => simp [Suffix.AllWellFormed]
  | cons suffix suffixes ih => simp [Suffix.AllWellFormed, ih]

/-- An expression without operators, which may stand alone as a statement. -/
def Expression.IsTerm : Expression → Prop
  | .applied .. | .atom _ => True
  | _ => False

/-! ## Types and declarations -/

def ArraySuffix.signs (suffix : ArraySuffix) : List Sign :=
  between "[" ((suffix.size.map Expression.signs).getD []) "]"

def ArraySuffix.WellFormed (suffix : ArraySuffix) : Prop :=
  ∀ size ∈ suffix.size, size.WellFormed

mutual

def ElementType.signs : ElementType → List Sign
  | .bool => [.mark "bool"]
  | .num => [.mark "num"]
  | .float => [.mark "float"]
  | .string => [.mark "string"]
  | .inputFile => [.mark "InputFile"]
  | .outputFile => [.mark "OutputFile"]
  | .procedure parameters =>
    [[.mark "proc"],
      between "(" (separated (.mark ",") (ElementType.signsOfEach parameters)) ")"].flatten

def ElementType.signsOfEach : List (ElementType × List ArraySuffix) → List (List Sign)
  | [] => []
  | (element, suffixes) :: parameters =>
    [element.signs, suffixes.flatMap ArraySuffix.signs].flatten ::
      ElementType.signsOfEach parameters

end

mutual

def ElementType.WellFormed : ElementType → Prop
  | .procedure parameters => ElementType.AllWellFormed parameters
  | _ => True

def ElementType.AllWellFormed : List (ElementType × List ArraySuffix) → Prop
  | [] => True
  | (element, suffixes) :: parameters =>
    (element.WellFormed ∧ ∀ suffix ∈ suffixes, suffix.WellFormed) ∧
      ElementType.AllWellFormed parameters

end

def Predicate.signs (predicate : Predicate) : List Sign :=
  [predicate.element.signs, [.name predicate.name],
    predicate.suffixes.flatMap ArraySuffix.signs].flatten

def Predicate.WellFormed (predicate : Predicate) : Prop :=
  predicate.element.WellFormed ∧ ∀ suffix ∈ predicate.suffixes, suffix.WellFormed

def Declaration.signs (declaration : Declaration) : List Sign :=
  [declaration.predicate.signs,
    (declaration.initial.map fun value => [[.mark "="], value.signs].flatten).getD []].flatten

def Declaration.WellFormed (declaration : Declaration) : Prop :=
  declaration.predicate.WellFormed ∧ ∀ value ∈ declaration.initial, value.WellFormed

/-! ## Statements -/

def Target.signs : Target → List Sign
  | .name text => [.name text]
  | .subscript head index => head.signs ++ between "[" index.signs "]"

/-- A name with any number of subscripts. -/
def Expression.IsPlace : Expression → Prop
  | .atom (.name _) => True
  | .applied (.name _) suffixes => ∀ suffix ∈ suffixes, ∃ index, suffix = .subscript index
  | _ => False

def Target.WellFormed : Target → Prop
  | .name _ => True
  | .subscript head index => head.IsPlace ∧ head.WellFormed ∧ index.WellFormed

/-- A clause that names a file, or nothing. -/
def Atom.clause (word : String) (file : Option Atom) : List Sign :=
  (file.map fun atom => [[.mark word], atom.signs].flatten).getD []

/-- An indented body. -/
def Sign.body (statements : List (List Sign)) : List Sign :=
  between "indent" (separated (.mark "newline") statements) "dedent"

mutual

def Statement.signs : Statement → List Sign
  | .ifThen condition body alternative =>
    [[.mark "if"], condition.signs, [.mark "then"], Sign.body (Statement.signsOfEach body),
      Statement.signsOfAlternative alternative, [.mark "newline"], [.mark "endif"]].flatten
  | .whileLoop condition body =>
    [[.mark "while"], condition.signs, Sign.body (Statement.signsOfEach body), [.mark "newline"],
      [.mark "endwhile"]].flatten
  | .doUntil body condition =>
    [[.mark "do"], Sign.body (Statement.signsOfEach body), [.mark "newline"], [.mark "until"],
      condition.signs].flatten
  | .forLoop counter start stop step body =>
    [[.mark "for"], [.name counter], [.mark "="], start.signs, [.mark "to"], stop.signs,
      [.mark "step"], step.signs, Sign.body (Statement.signsOfEach body), [.mark "newline"],
      [.mark "endfor"]].flatten
  | .caseOf subject arms default =>
    [[.mark "case"], subject.signs, [.mark "indent"],
      separated (.mark "newline")
        (Statement.signsOfArms arms ++ Statement.signsOfDefault default),
      [.mark "dedent"], [.mark "newline"], [.mark "endcase"]].flatten
  | .set target value => [[.mark "set"], target.signs, [.mark "="], value.signs].flatten
  | .input targets file =>
    [[.mark "input"], separated (.mark ",") (targets.map fun text => [.name text]),
      Atom.clause "from" file].flatten
  | .output values file =>
    [[.mark "output"], separated (.mark ",") (values.map Expression.signs),
      Atom.clause "to" file].flatten
  | .openFile name path => [[.mark "open"], [.name name], path.signs].flatten
  | .closeFile name => [[.mark "close"], [.name name]].flatten
  | .expression value => value.signs

def Statement.signsOfEach : List Statement → List (List Sign)
  | [] => []
  | statement :: statements => statement.signs :: Statement.signsOfEach statements

def Statement.signsOfAlternative : Option (List Statement) → List Sign
  | none => []
  | some body =>
    [[.mark "newline"], [.mark "else"], Sign.body (Statement.signsOfEach body)].flatten

def Statement.signsOfArms : List (Atom × List Statement) → List (List Sign)
  | [] => []
  | (test, body) :: arms =>
    [test.signs, [.mark ":"], Sign.body (Statement.signsOfEach body)].flatten ::
      Statement.signsOfArms arms

def Statement.signsOfDefault : Option (List Statement) → List (List Sign)
  | none => []
  | some body =>
    [[[.mark "default"], [.mark ":"], Sign.body (Statement.signsOfEach body)].flatten]

end

mutual

/-- No body is empty, and neither is a list of values or names or a series of cases. -/
def Statement.WellFormed : Statement → Prop
  | .ifThen condition body alternative =>
    condition.WellFormed ∧ (body ≠ [] ∧ Statement.AllWellFormed body) ∧
      Statement.PartWellFormed alternative
  | .whileLoop condition body =>
    condition.WellFormed ∧ body ≠ [] ∧ Statement.AllWellFormed body
  | .doUntil body condition =>
    condition.WellFormed ∧ body ≠ [] ∧ Statement.AllWellFormed body
  | .forLoop _ start stop step body =>
    start.WellFormed ∧ stop.WellFormed ∧ step.WellFormed ∧
      body ≠ [] ∧ Statement.AllWellFormed body
  | .caseOf subject arms default =>
    subject.WellFormed ∧ (arms = [] → default ≠ none) ∧ Statement.ArmsWellFormed arms ∧
      Statement.PartWellFormed default
  | .set target value => target.WellFormed ∧ value.WellFormed
  | .input targets file => targets ≠ [] ∧ ∀ atom ∈ file, atom.WellFormed
  | .output values file =>
    (values ≠ [] ∧ ∀ value ∈ values, value.WellFormed) ∧ ∀ atom ∈ file, atom.WellFormed
  | .openFile _ path => path.WellFormed
  | .closeFile _ => True
  | .expression value => value.IsTerm ∧ value.WellFormed

def Statement.AllWellFormed : List Statement → Prop
  | [] => True
  | statement :: statements => statement.WellFormed ∧ Statement.AllWellFormed statements

def Statement.PartWellFormed : Option (List Statement) → Prop
  | none => True
  | some body => body ≠ [] ∧ Statement.AllWellFormed body

def Statement.ArmsWellFormed : List (Atom × List Statement) → Prop
  | [] => True
  | (test, body) :: arms =>
    (test.WellFormed ∧ body ≠ [] ∧ Statement.AllWellFormed body) ∧ Statement.ArmsWellFormed arms

end

/-! ## Programs -/

/-- Declarations, if there are any, and statements. After declarations every statement stands on a
line of its own. -/
def Block.content : List Declaration → List Statement → List Sign
  | [], statements => separated (.mark "newline") (statements.map Statement.signs)
  | declarations, statements =>
    .mark "Declarations" ::
      (between "indent" (separated (.mark "newline") (declarations.map Declaration.signs))
          "dedent" ++
        statements.flatMap fun statement => .mark "newline" :: statement.signs)

def Block.signs (block : Block) : List Sign :=
  [[.mark "indent"], Block.content block.declarations block.statements, [.mark "dedent"],
    [.mark "newline"]].flatten

def Block.WellFormed (block : Block) : Prop :=
  (∀ declaration ∈ block.declarations, declaration.WellFormed) ∧
    ∀ statement ∈ block.statements, statement.WellFormed

def Block.entry (block : Block) : List Sign := between "start" block.signs "end"

def Procedure.signs (procedure : Procedure) : List Sign :=
  [[.name procedure.name],
    between "(" (separated (.mark ",") (procedure.parameters.map Predicate.signs)) ")",
    procedure.body.signs, [.mark "return"]].flatten

def Procedure.WellFormed (procedure : Procedure) : Prop :=
  (∀ parameter ∈ procedure.parameters, parameter.WellFormed) ∧ procedure.body.WellFormed

/-- Entries, then procedures, and the end of the source. -/
def Program.signs (program : Program) : List Sign :=
  separated (.mark "newline")
    (program.entries.map Block.entry ++ program.procedures.map Procedure.signs) ++ [.eof]

def Program.WellFormed (program : Program) : Prop :=
  (∀ entry ∈ program.entries, entry.WellFormed) ∧
    ∀ procedure ∈ program.procedures, procedure.WellFormed

end PseudoLang
