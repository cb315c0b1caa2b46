import PseudoLang.Program.Json
import PseudoLang.Proofs.Json.Numbers
import PseudoLang.Proofs.Language.Rendering

/-!
The numbers of a program in JSON. They are its literals, in the order in which the program is
written (`Program.numbers_toJson`).
-/

namespace PseudoLang

open Sign (between separated)

/-! ## Numbers of values -/

namespace Json

@[simp] theorem numbers_null : null.numbers = [] := by rw [numbers]

@[simp] theorem numbers_string (s : String) : (string s).numbers = [] := by rw [numbers]

@[simp] theorem numbers_array (items : List Json) :
    (array items).numbers = (items.map numbers).flatten := by rw [numbers]

@[simp] theorem numbers_object (members : List (String × Json)) :
    (object members).numbers = (members.map fun member => member.2.numbers).flatten := by
  rw [numbers]

@[simp] theorem numbers_variant (name : String) (content : Json) :
    (variant name content).numbers = content.numbers := by
  simp [variant]

@[simp] theorem numbers_body (statements : List Json) :
    (body statements).numbers = (statements.map numbers).flatten := by
  simp [body]

@[simp] theorem numbers_strings (texts : List String) : (strings texts).numbers = [] := by
  simp [strings, List.map_map]

end Json

/-! ## Literals among signs -/

namespace Sign

/-- The number that a literal stands for in JSON. -/
def literal? : Sign → Option Json
  | num value => some (.integer value.toInt)
  | float value => some (.float value)
  | _ => none

def literals (signs : List Sign) : List Json := signs.filterMap literal?

variable {signs more : List Sign} {parts : List (List Sign)}

@[simp] theorem literals_nil : literals [] = [] := rfl

@[simp] theorem literals_append : literals (signs ++ more) = literals signs ++ literals more :=
  List.filterMap_append ..

@[simp] theorem literals_mark (kind : String) : literals (mark kind :: signs) = literals signs := rfl

@[simp] theorem literals_name (text : String) : literals (name text :: signs) = literals signs := rfl

@[simp] theorem literals_operator (text : String) :
    literals (operator text :: signs) = literals signs := rfl

@[simp] theorem literals_between (left right : String) :
    literals (between left signs right) = literals signs := by
  simp [between]

theorem literals_flatten : literals parts.flatten = (parts.map literals).flatten :=
  List.filterMap_flatten ..

@[simp] theorem literals_separated (separator : String) :
    literals (separated (mark separator) parts) = literals parts.flatten := by
  cases parts with
  | nil => rfl
  | cons first parts => simp [separated, literals_flatten, List.flatMap, Function.comp_def]

@[simp] theorem literals_body : literals (body parts) = literals parts.flatten := by
  simp [body]

theorem literals_names (texts : List String) :
    literals (texts.map fun text => [name text]).flatten = [] := by
  simp [literals_flatten]

end Sign

/-! ## Expressions -/

mutual

theorem Expression.numbers_toJson : ∀ expression : Expression,
    expression.toJson.numbers = Sign.literals expression.signs
  | .binary operator left right => by
    simp [Expression.toJson, Expression.signs, left.numbers_toJson, right.numbers_toJson]
  | .unary operator operand => by
    simp [Expression.toJson, Expression.signs, operand.numbers_toJson]
  | .applied head suffixes => by
    simp [Expression.toJson, Expression.signs, head.numbers_toJson,
      Suffix.numbers_toJsonAll suffixes]
  | .atom value => by simp [Expression.toJson, Expression.signs, value.numbers_toJson]

theorem Suffix.numbers_toJson : ∀ suffix : Suffix,
    suffix.toJson.numbers = Sign.literals suffix.signs
  | .subscript index => by simp [Suffix.toJson, Suffix.signs, index.numbers_toJson]
  | .call arguments => by
    simp [Suffix.toJson, Suffix.signs, Expression.numbers_toJsonAll arguments]

theorem Atom.numbers_toJson : ∀ atom : Atom, atom.toJson.numbers = Sign.literals atom.signs
  | .name text => by simp [Atom.toJson, Atom.signs]
  | .num value => by simp [Atom.toJson, Atom.signs, Json.numbers, Sign.literals, Sign.literal?]
  | .float value => by simp [Atom.toJson, Atom.signs, Json.numbers, Sign.literals, Sign.literal?]
  | .string value => by simp [Atom.toJson, Atom.signs, Sign.literals, Sign.literal?]
  | .bool value => by simp [Atom.toJson, Atom.signs, Json.numbers, Sign.literals, Sign.literal?]
  | .group inner => by simp [Atom.toJson, Atom.signs, inner.numbers_toJson]
  | .list items => by simp [Atom.toJson, Atom.signs, Expression.numbers_toJsonAll items]

theorem Expression.numbers_toJsonAll : ∀ expressions : List Expression,
    ((Expression.toJsonAll expressions).map Json.numbers).flatten =
      Sign.literals (Expression.signsOfEach expressions).flatten
  | [] => rfl
  | expression :: expressions => by
    simp [Expression.toJsonAll, Expression.signsOfEach, expression.numbers_toJson,
      Expression.numbers_toJsonAll expressions]

theorem Suffix.numbers_toJsonAll : ∀ suffixes : List Suffix,
    ((Suffix.toJsonAll suffixes).map Json.numbers).flatten =
      Sign.literals (Suffix.signsOfEach suffixes).flatten
  | [] => rfl
  | suffix :: suffixes => by
    simp [Suffix.toJsonAll, Suffix.signsOfEach, suffix.numbers_toJson,
      Suffix.numbers_toJsonAll suffixes]

end

/-! ## Types and declarations -/

section

variable {α : Type} {write : α → Json} {signs : α → List Sign}
  (h : ∀ a, (write a).numbers = Sign.literals (signs a))

include h

theorem Json.numbers_ofOption (part : Option α) :
    (Json.ofOption write part).numbers = Sign.literals ((part.map signs).getD []) := by
  cases part with
  | none => exact Json.numbers_null
  | some a => exact h a

theorem Json.numbers_map (items : List α) :
    ((items.map write).map Json.numbers).flatten = Sign.literals (items.map signs).flatten := by
  rw [Sign.literals_flatten, List.map_map, List.map_map]
  exact congrArg List.flatten (List.map_congr_left fun a _ => h a)

end

theorem ArraySuffix.numbers_toJson (suffix : ArraySuffix) :
    suffix.toJson.numbers = Sign.literals suffix.signs := by
  simp [ArraySuffix.toJson, ArraySuffix.signs, Json.numbers_ofOption Expression.numbers_toJson]

theorem ArraySuffix.numbers_toJsonAll (suffixes : List ArraySuffix) :
    (ArraySuffix.toJsonAll suffixes).numbers =
      Sign.literals (suffixes.flatMap ArraySuffix.signs) := by
  rw [ArraySuffix.toJsonAll, Json.numbers_array, Json.numbers_map ArraySuffix.numbers_toJson,
    List.flatMap]

mutual

theorem ElementType.numbers_toJson : ∀ element : ElementType,
    element.toJson.numbers = Sign.literals element.signs
  | .bool | .num | .float | .string | .inputFile | .outputFile => by
    simp [ElementType.toJson, ElementType.signs]
  | .procedure parameters => by
    simp [ElementType.toJson, ElementType.signs, ElementType.numbers_parametersToJson parameters]

theorem ElementType.numbers_parametersToJson :
    ∀ parameters : List (ElementType × List ArraySuffix),
      ((ElementType.parametersToJson parameters).map Json.numbers).flatten =
        Sign.literals (ElementType.signsOfEach parameters).flatten
  | [] => rfl
  | (element, suffixes) :: parameters => by
    simp [ElementType.parametersToJson, ElementType.signsOfEach, element.numbers_toJson,
      ArraySuffix.numbers_toJsonAll suffixes, ElementType.numbers_parametersToJson parameters]

end

theorem Predicate.numbers_toJson (predicate : Predicate) :
    predicate.toJson.numbers = Sign.literals predicate.signs := by
  simp [Predicate.toJson, Predicate.signs, ElementType.numbers_toJson,
    ArraySuffix.numbers_toJsonAll]

theorem Declaration.numbers_toJson (declaration : Declaration) :
    declaration.toJson.numbers = Sign.literals declaration.signs := by
  have initial := @Json.numbers_ofOption _ Expression.toJson
    (fun value => [[.mark "="], value.signs].flatten)
    (fun value => by simp [value.numbers_toJson]) declaration.initial
  rw [Declaration.toJson, Declaration.signs]
  simp [Predicate.numbers_toJson, initial]

/-! ## Statements -/

theorem Target.numbers_toJson (target : Target) :
    target.toJson.numbers = Sign.literals target.signs := by
  cases target with
  | name text => simp [Target.toJson, Target.signs]
  | subscript head index => simp [Target.toJson, Target.signs, Expression.numbers_toJson]

theorem Atom.numbers_clause (word : String) (file : Option Atom) :
    (Json.ofOption Atom.toJson file).numbers = Sign.literals (Atom.clause word file) :=
  Json.numbers_ofOption (fun atom => by simp [atom.numbers_toJson]) file

mutual

theorem Statement.numbers_toJson : ∀ statement : Statement,
    statement.toJson.numbers = Sign.literals statement.signs
  | .ifThen condition body alternative => by
    simp [Statement.toJson, Statement.signs, condition.numbers_toJson,
      Statement.numbers_toJsonAll body, Statement.numbers_bodyToJson alternative]
  | .whileLoop condition body => by
    simp [Statement.toJson, Statement.signs, condition.numbers_toJson,
      Statement.numbers_toJsonAll body]
  | .doUntil body condition => by
    simp [Statement.toJson, Statement.signs, condition.numbers_toJson,
      Statement.numbers_toJsonAll body]
  | .forLoop counter start stop step body => by
    simp [Statement.toJson, Statement.signs, start.numbers_toJson, stop.numbers_toJson,
      step.numbers_toJson, Statement.numbers_toJsonAll body]
  | .caseOf subject arms default => by
    simp [Statement.toJson, Statement.signs, subject.numbers_toJson,
      Statement.numbers_armsToJson arms, Statement.numbers_default default]
  | .set target value => by
    simp [Statement.toJson, Statement.signs, target.numbers_toJson, value.numbers_toJson]
  | .input targets file => by
    simp [Statement.toJson, Statement.signs, Atom.numbers_clause "from" file, Sign.literals_names]
  | .output values file => by
    have written := Json.numbers_map Expression.numbers_toJson values
    rw [List.map_map] at written
    simp [Statement.toJson, Statement.signs, Atom.numbers_clause "to" file, written]
  | .openFile name path => by simp [Statement.toJson, Statement.signs, path.numbers_toJson]
  | .closeFile name => by simp [Statement.toJson, Statement.signs]
  | .expression value => by simp [Statement.toJson, Statement.signs, value.numbers_toJson]

theorem Statement.numbers_toJsonAll : ∀ statements : List Statement,
    ((Statement.toJsonAll statements).map Json.numbers).flatten =
      Sign.literals (Statement.signsOfEach statements).flatten
  | [] => rfl
  | statement :: statements => by
    simp [Statement.toJsonAll, Statement.signsOfEach, statement.numbers_toJson,
      Statement.numbers_toJsonAll statements]

theorem Statement.numbers_bodyToJson : ∀ alternative : Option (List Statement),
    (Statement.bodyToJson alternative).numbers =
      Sign.literals (Statement.signsOfAlternative alternative)
  | none => Json.numbers_null
  | some body => by
    simp [Statement.bodyToJson, Statement.signsOfAlternative, Statement.numbers_toJsonAll body]

theorem Statement.numbers_default : ∀ default : Option (List Statement),
    (Statement.bodyToJson default).numbers =
      Sign.literals (Statement.signsOfDefault default).flatten
  | none => Json.numbers_null
  | some body => by
    simp [Statement.bodyToJson, Statement.signsOfDefault, Statement.numbers_toJsonAll body]

theorem Statement.numbers_armsToJson : ∀ arms : List (Atom × List Statement),
    ((Statement.armsToJson arms).map Json.numbers).flatten =
      Sign.literals (Statement.signsOfArms arms).flatten
  | [] => rfl
  | (test, body) :: arms => by
    simp [Statement.armsToJson, Statement.signsOfArms, test.numbers_toJson,
      Statement.numbers_toJsonAll body, Statement.numbers_armsToJson arms]

end

/-! ## Programs -/

theorem Block.literals_content (declarations : List Declaration) (statements : List Statement) :
    Sign.literals (Block.content declarations statements) =
      Sign.literals (declarations.map Declaration.signs).flatten ++
        Sign.literals (statements.map Statement.signs).flatten := by
  cases declarations with
  | nil => simp [Block.content]
  | cons declaration declarations =>
    simp [Block.content, Sign.literals_flatten, List.flatMap, Function.comp_def]

theorem Block.numbers_toJson (block : Block) :
    block.toJson.numbers = Sign.literals block.signs := by
  rw [Block.toJson, Block.signs]
  simp [Block.literals_content, ← Json.numbers_map Declaration.numbers_toJson,
    ← Json.numbers_map Statement.numbers_toJson]

theorem Procedure.numbers_toJson (procedure : Procedure) :
    procedure.toJson.numbers = Sign.literals procedure.signs := by
  rw [Procedure.toJson, Procedure.signs]
  simp [procedure.body.numbers_toJson, ← Json.numbers_map Predicate.numbers_toJson]

/-- The numbers of a program in JSON are its literals. -/
theorem Program.numbers_toJson (program : Program) :
    program.toJson.numbers = Sign.literals program.signs := by
  have entries : ∀ entry : Block, (Json.object [("body", entry.toJson)]).numbers =
      Sign.literals entry.entry := fun entry => by
    simp [Block.entry, entry.numbers_toJson]
  have ending : Sign.literals [.eof] = [] := rfl
  rw [Program.toJson, Program.signs]
  simp [ending, ← Json.numbers_map entries, ← Json.numbers_map Procedure.numbers_toJson]

end PseudoLang
