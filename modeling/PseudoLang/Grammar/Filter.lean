import PseudoLang.Precedence.Association
import PseudoLang.SyntaxTree

/-!
Filters rework the tree of a rule before it is used. There is one, which joins a flat sequence of
terms and operators by precedence.
-/

namespace PseudoLang.Grammar

open Precedence (Element OperatorTree)

/-- A filter yields a tree in place of the one it is given, or rejects it, or fails. -/
abbrev Filter := SyntaxTree → Except Cause (Option SyntaxTree)

namespace Filter

/-- An item of a flat sequence. A token is an operator unless it is tagged as a term. -/
def elementOf : SyntaxTree → Element SyntaxTree
  | .tagged "term" value => .term (.tagged "term" value)
  | .tagged _ (.token _ value) => .operator value
  | item => .term item

/-- The syntax tree of terms joined by operators. -/
def join : OperatorTree SyntaxTree → SyntaxTree
  | .term value => value
  | .binary operator left right => .binary operator (join left) (join right)
  | .unary operator operand => .unary operator (join operand)

/-- Joins a flat sequence of terms and operators into one expression. An empty sequence is
rejected, and so is every other form of tree. The depth of the expression is limited with all that
its terms contain. -/
def precedence : Filter
  | .seq [] => .ok none
  | .seq items => do
    let tree := join (← Precedence.resolve .language (items.map elementOf))
    if Precedence.maxNesting < tree.depth then throw (.nestingTooDeep Precedence.maxNesting)
    return some tree
  | _ => .ok none

/-- The filter of the given name. -/
def named? (name : String) : Option Filter := if name = "precedence" then some precedence else none

end Filter

end PseudoLang.Grammar
