import PseudoLang.Error
import PseudoLang.Grammar.Rule

/-!
Grammars as tables of named rules. In a valid table every reference names a rule, and every chain
of plain aliases ends in a rule that is not one.
-/

namespace PseudoLang.Grammar

/-- The rules of a grammar by name. -/
abbrev Table := List (String × Rule)

namespace Table

/-- Follows a chain of plain aliases from `name`, for at most the given number of rules: all the
names on the way, and the rule at its end. -/
def follow (table : Table) (start : String) : Nat → String → Except Cause (List String × Rule)
  | 0, _ => .error (.trivialCycle start)
  | bound + 1, name =>
    match table.lookup name with
    | none => .error (.unknownRule name)
    | some (.reference next) => do
      let (chain, rule) ← follow table start bound next
      return (name :: chain, rule)
    | some rule => .ok ([name], rule)

/-- Follows a chain of plain aliases to its end. A chain with more names than the table has rules
comes back to itself. -/
def resolve (table : Table) (name : String) : Except Cause (List String × Rule) :=
  table.follow name (table.length + 1) name

/-- The first reference of a rule that names no rule of the table. -/
def unknownReference? (table : Table) (rule : Rule) : Option String :=
  rule.references.find? fun name => (table.lookup name).isNone

/-- What is wrong with one rule of the table. -/
def checkRule (table : Table) (name : String) (rule : Rule) : Except Cause Unit :=
  match table.unknownReference? rule with
  | some reference => .error (.unknownRule reference)
  | none =>
    match table.resolve name with
    | .error (.trivialCycle start) => .error (.trivialCycle start)
    | _ => .ok ()

/-- What is wrong with a table. -/
def check (table : Table) : Except Cause Unit :=
  table.forM fun (name, rule) => table.checkRule name rule

/-- The first error of a table, which belongs to no place in a source. -/
def validate (table : Table) : Except Error Unit :=
  table.check.mapError Error.nowhere

end Table

end PseudoLang.Grammar
