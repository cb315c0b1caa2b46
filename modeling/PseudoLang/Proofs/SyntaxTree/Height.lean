import PseudoLang.SyntaxTree

/-!
The depth of a tree by recursion on the tree. The list of pending trees that `depth` works through
comes to the same number.
-/

namespace PseudoLang.SyntaxTree

mutual

/-- The number of nodes on the longest path from the root to a leaf. -/
def height : SyntaxTree → Nat
  | token .. => 1
  | seq items => heightOfAll items + 1
  | tagged _ value => height value + 1
  | pair left right => max (heightOfPart left) (heightOfPart right) + 1
  | binary _ left right => max (height left) (height right) + 1
  | unary _ operand => height operand + 1

def heightOfAll : List SyntaxTree → Nat
  | [] => 0
  | tree :: trees => max (height tree) (heightOfAll trees)

def heightOfPart : Option SyntaxTree → Nat
  | none => 0
  | some tree => height tree

end

theorem heightOfAll_append (trees more : List SyntaxTree) :
    heightOfAll (trees ++ more) = max (heightOfAll trees) (heightOfAll more) := by
  induction trees with
  | nil => simp [heightOfAll]
  | cons tree trees ih => simp [heightOfAll, ih, Nat.max_assoc]

theorem heightOfAll_toList (part : Option SyntaxTree) :
    heightOfAll part.toList = heightOfPart part := by
  cases part <;> simp [heightOfAll, heightOfPart]

theorem height_eq_children (tree : SyntaxTree) : tree.height = heightOfAll tree.children + 1 := by
  cases tree <;> simp [height, children, heightOfAll, heightOfAll_append, heightOfAll_toList]

theorem heightOfAll_le {trees : List SyntaxTree} {bound : Nat} :
    heightOfAll trees ≤ bound ↔ ∀ tree ∈ trees, tree.height ≤ bound := by
  induction trees with
  | nil => simp [heightOfAll]
  | cons tree trees ih => rw [heightOfAll, Nat.max_le, ih, List.forall_mem_cons]

/-- The greatest level that the pending trees reach. -/
def reach : List (SyntaxTree × Nat) → Nat
  | [] => 0
  | (tree, level) :: rest => max (level + tree.height - 1) (reach rest)

theorem reach_append (pending more : List (SyntaxTree × Nat)) :
    reach (pending ++ more) = max (reach pending) (reach more) := by
  induction pending with
  | nil => simp [reach]
  | cons first rest ih => simp [reach, ih, Nat.max_assoc]

/-- The level of a node and the levels that its children reach. -/
theorem max_reach_children (trees : List SyntaxTree) (level : Nat) :
    max level (reach (trees.map (·, level + 1))) = level + heightOfAll trees := by
  induction trees with
  | nil => simp [reach, heightOfAll]
  | cons tree trees ih =>
    have positive := height_eq_children tree
    simp only [List.map_cons, reach, heightOfAll]
    omega

theorem depthFrom_eq (deepest : Nat) (pending : List (SyntaxTree × Nat)) :
    depthFrom deepest pending = max deepest (reach pending) := by
  induction deepest, pending using depthFrom.induct with
  | case1 deepest => simp [depthFrom, reach]
  | case2 deepest tree level rest ih =>
    have children := max_reach_children tree.children level
    have positive := height_eq_children tree
    rw [depthFrom, ih, reach_append, reach]
    omega

theorem depth_eq_height (tree : SyntaxTree) : tree.depth = tree.height := by
  have positive := height_eq_children tree
  rw [depth, depthFrom_eq, reach, reach]
  omega

end PseudoLang.SyntaxTree
