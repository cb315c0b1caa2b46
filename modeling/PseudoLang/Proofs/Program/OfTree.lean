import PseudoLang.Program.OfTree
import PseudoLang.Proofs.Outcome

/-!
Reading a list of trees is reading each of them in turn, and reading a series is reading its
primaries. A number is read from a text that stands for it.
-/

namespace PseudoLang

theorem Expression.ofTrees_eq (trees : List SyntaxTree) :
    Expression.ofTrees trees = trees.mapM Expression.ofTree := by
  induction trees with
  | nil => rfl
  | cons tree trees ih => rw [Expression.ofTrees, ih, List.mapM_cons]

theorem Suffix.ofTrees_eq (trees : List SyntaxTree) :
    Suffix.ofTrees trees = trees.mapM Suffix.ofTree := by
  induction trees with
  | nil => rfl
  | cons tree trees ih => rw [Suffix.ofTrees, ih, List.mapM_cons]

/-- The type of one parameter of a procedure type. -/
def ElementType.ofParameter : SyntaxTree → Except Cause (ElementType × List ArraySuffix)
  | .seq [element, suffixes] => do
    return (← ElementType.ofTree element, ← ArraySuffix.ofSeries suffixes)
  | tree => .error (tree.unexpected "proctypeparam")

theorem ElementType.ofParameters_eq (trees : List SyntaxTree) :
    ElementType.ofParameters trees = trees.mapM ElementType.ofParameter := by
  induction trees with
  | nil => rfl
  | cons tree trees ih =>
    rw [List.mapM_cons, ← ih]
    unfold ElementType.ofParameter
    split
    · simp only [ElementType.ofParameters, bind_assoc, pure_bind]
    · rename_i other
      rw [ElementType.ofParameters, error_bind]
      exact fun _ _ same => other _ _ same

theorem Statement.ofSeries_eq (trees : List SyntaxTree) :
    Statement.ofSeries trees = (SyntaxTree.primaries trees).mapM Statement.ofTree := by
  induction trees using SyntaxTree.primaries.induct with
  | case1 => rfl
  | case2 tree => rw [Statement.ofSeries, SyntaxTree.primaries, List.mapM_cons, List.mapM_nil]; rfl
  | case3 tree separator trees ih =>
    rw [Statement.ofSeries, SyntaxTree.primaries, List.mapM_cons, ih]

theorem Statement.ofArmSeries_eq (trees : List SyntaxTree) :
    Statement.ofArmSeries trees = (SyntaxTree.primaries trees).mapM Statement.ofArm := by
  induction trees using SyntaxTree.primaries.induct with
  | case1 => rfl
  | case2 tree =>
    rw [Statement.ofArmSeries, SyntaxTree.primaries, List.mapM_cons, List.mapM_nil]; rfl
  | case3 tree separator trees ih =>
    rw [Statement.ofArmSeries, SyntaxTree.primaries, List.mapM_cons, ih]

theorem Number.ofText_of_read {α : Type} {read : String → Option α} {text : String} {value : α}
    (h : read text = some value) : Number.ofText read text = .ok value := by
  rw [Number.ofText, h]

theorem Number.read_of_ofText {α : Type} {read : String → Option α} {text : String} {value : α}
    (h : ofText read text = .ok value) : read text = some value := by
  unfold ofText at h
  split at h
  · rename_i found
    cases h
    exact found
  · cases h

theorem SyntaxTree.mem_of_mem_primaries {tree : SyntaxTree} {trees : List SyntaxTree}
    (h : tree ∈ primaries trees) : tree ∈ trees := by
  induction trees using primaries.induct with
  | case1 => cases h
  | case2 => exact h
  | case3 first separator trees ih =>
    rw [primaries, List.mem_cons] at h
    obtain rfl | h := h
    · exact List.mem_cons_self
    · exact List.mem_cons_of_mem _ (List.mem_cons_of_mem _ (ih h))

/-- A series with an item has a primary. -/
theorem SyntaxTree.primaries_ne_nil (tree : SyntaxTree) (trees : List SyntaxTree) :
    primaries (tree :: trees) ≠ [] := by
  cases trees <;> simp [primaries]

end PseudoLang
