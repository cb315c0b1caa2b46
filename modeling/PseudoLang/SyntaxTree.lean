/-!
Syntax trees as the rules of a grammar shape them, before anything is made of them. Every kind of
rule yields one of the forms below.
-/

namespace PseudoLang

inductive SyntaxTree
  /-- A token, by the name that the grammar matches it by and its text. -/
  | token (kind value : String)
  /-- The results of a sequence or a repetition. -/
  | seq (items : List SyntaxTree)
  /-- The alternative that matched, under its name. -/
  | tagged (tag : String) (value : SyntaxTree)
  /-- Two parts of which one may be missing. -/
  | pair (left right : Option SyntaxTree)
  /-- An operator between its operands. -/
  | binary (operator : String) (left right : SyntaxTree)
  /-- An operator before its operand. -/
  | unary (operator : String) (operand : SyntaxTree)
  deriving Repr

namespace SyntaxTree

/-- The name of the form of a tree. -/
def shape : SyntaxTree → String
  | token .. => "token"
  | seq _ => "seq"
  | tagged .. => "tagged"
  | pair .. => "pair"
  | binary .. => "infix"
  | unary .. => "prefix"

/-- The trees right below the root, in source order. -/
def children : SyntaxTree → List SyntaxTree
  | token .. => []
  | seq items => items
  | tagged _ value => [value]
  | pair left right => left.toList ++ right.toList
  | binary _ left right => [left, right]
  | unary _ operand => [operand]

/-! ## Size -/

mutual

/-- The number of nodes. -/
def size : SyntaxTree → Nat
  | token .. => 1
  | seq items => sizeOfAll items + 1
  | tagged _ value => size value + 1
  | pair left right => sizeOfPart left + sizeOfPart right + 1
  | binary _ left right => size left + size right + 1
  | unary _ operand => size operand + 1

def sizeOfAll : List SyntaxTree → Nat
  | [] => 0
  | tree :: trees => size tree + sizeOfAll trees

def sizeOfPart : Option SyntaxTree → Nat
  | none => 0
  | some tree => size tree

end

theorem sizeOfAll_append (trees more : List SyntaxTree) :
    sizeOfAll (trees ++ more) = sizeOfAll trees + sizeOfAll more := by
  induction trees with
  | nil => simp [sizeOfAll]
  | cons tree trees ih => simp [sizeOfAll, ih, Nat.add_assoc]

theorem sizeOfAll_toList (part : Option SyntaxTree) :
    sizeOfAll part.toList = sizeOfPart part := by
  cases part <;> simp [sizeOfAll, sizeOfPart]

/-- A node counts for one beside its children. -/
theorem size_eq_children (tree : SyntaxTree) : tree.size = sizeOfAll tree.children + 1 := by
  cases tree <;> simp [size, children, sizeOfAll, sizeOfAll_append, sizeOfAll_toList]

/-! ## Depth -/

/-- The greatest level among `deepest` and the nodes of the pending trees, each of which is given
with the level of its root. -/
def depthFrom (deepest : Nat) (pending : List (SyntaxTree × Nat)) : Nat :=
  match pending with
  | [] => deepest
  | (tree, level) :: rest =>
    depthFrom (max deepest level) (tree.children.map (·, level + 1) ++ rest)
termination_by sizeOfAll (pending.map Prod.fst)
decreasing_by
  simp [sizeOfAll, sizeOfAll_append, Function.comp_def, size_eq_children tree]

/-- The number of nodes on the longest path from the root to a leaf. The trees still to be visited
are kept on a list, so that no tree is too deep to be measured. -/
def depth (tree : SyntaxTree) : Nat := depthFrom 0 [(tree, 1)]

end SyntaxTree

end PseudoLang
