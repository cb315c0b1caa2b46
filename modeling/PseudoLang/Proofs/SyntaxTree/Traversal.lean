import PseudoLang.Proofs.SyntaxTree.Height

/-!
Traversals of a tree that visit its nodes in whatever order. A visit makes the children of a node
pending in its place; it keeps the greatest level that is met in the end (`Visits.reach_eq`), and
there is one node less to be visited (`Visits.size_eq`). So every traversal ends after as many
visits as the tree has nodes, with the depth of the tree (`depth_any_order`).
-/

namespace PseudoLang.SyntaxTree

/-! ## The order of pending trees -/

theorem sizeOfAll_perm {trees more : List SyntaxTree} (h : trees.Perm more) :
    sizeOfAll trees = sizeOfAll more := by
  induction h with
  | nil => rfl
  | cons tree _ ih => rw [sizeOfAll, sizeOfAll, ih]
  | swap tree other trees => simp only [sizeOfAll]; omega
  | trans _ _ first second => exact first.trans second

theorem reach_perm {pending more : List (SyntaxTree × Nat)} (h : pending.Perm more) :
    reach pending = reach more := by
  induction h with
  | nil => rfl
  | cons tree _ ih => rw [reach, reach, ih]
  | swap tree other pending => simp only [reach]; omega
  | trans _ _ first second => exact first.trans second

/-- Of some trees, one is the deepest. -/
theorem exists_deepest {trees : List SyntaxTree} (some : trees ≠ []) :
    ∃ tree ∈ trees, heightOfAll trees = tree.height := by
  induction trees with
  | nil => exact absurd rfl some
  | cons tree trees ih =>
    cases trees with
    | nil => exact ⟨tree, List.mem_singleton_self tree, Nat.max_zero _⟩
    | cons other trees =>
      obtain ⟨deepest, member, deep⟩ := ih (List.cons_ne_nil _ _)
      by_cases deeper : deepest.height ≤ tree.height
      · exact ⟨tree, List.mem_cons_self, by rw [heightOfAll, deep, Nat.max_eq_left deeper]⟩
      · refine ⟨deepest, List.mem_cons_of_mem _ member, ?_⟩
        rw [heightOfAll, deep]
        omega

theorem children_eq_nil_iff (tree : SyntaxTree) :
    tree.children = [] ↔
      (∃ kind value, tree = token kind value) ∨ tree = seq [] ∨ tree = pair none none := by
  cases tree <;> simp [children]

/-! ## Traversals -/

/-- A traversal on its way: the greatest level met so far, and the trees still to be visited, each
with the level of its root. -/
structure Traversal where
  deepest : Nat
  pending : List (SyntaxTree × Nat)

namespace Traversal

/-- Nothing is visited yet, and the root is at the first level. -/
def start (tree : SyntaxTree) : Traversal := ⟨0, [(tree, 1)]⟩

/-- One of the pending trees is visited, whichever it is. Its children are pending from then on, in
any order and anywhere among the others. -/
inductive Visits : Traversal → Traversal → Prop
  | visit {deepest level : Nat} {tree : SyntaxTree}
    {before after pending : List (SyntaxTree × Nat)} :
    pending.Perm (tree.children.map (·, level + 1) ++ (before ++ after)) →
    Visits ⟨deepest, before ++ (tree, level) :: after⟩ ⟨max deepest level, pending⟩

/-- So many visits one after the other. -/
inductive Run : Nat → Traversal → Traversal → Prop
  | done {traversal : Traversal} : Run 0 traversal traversal
  | next {visits : Nat} {first second last : Traversal} :
    Visits first second → Run visits second last → Run (visits + 1) first last

/-- The number of nodes still to be visited. -/
def size (traversal : Traversal) : Nat := sizeOfAll (traversal.pending.map Prod.fst)

/-- The greatest level that is met in the end. -/
def reach (traversal : Traversal) : Nat :=
  max traversal.deepest (SyntaxTree.reach traversal.pending)

variable {first second last traversal : Traversal} {visits : Nat}

/-! ## One visit -/

theorem Visits.size_eq (h : Visits first second) : first.size = second.size + 1 := by
  obtain ⟨order⟩ := h
  rename_i deepest level tree before after pending
  have same := sizeOfAll_perm (order.map Prod.fst)
  have node := size_eq_children tree
  simp only [List.map_append, List.map_map, Function.comp_def, List.map_id', sizeOfAll_append]
    at same
  simp only [size, List.map_append, List.map_cons, sizeOfAll_append, sizeOfAll]
  omega

theorem Visits.reach_eq (h : Visits first second) : first.reach = second.reach := by
  obtain ⟨order⟩ := h
  rename_i deepest level tree before after pending
  have same := reach_perm order
  have children := max_reach_children tree.children level
  have node := height_eq_children tree
  simp only [reach_append] at same
  simp only [reach, reach_append, SyntaxTree.reach]
  omega

/-- While a tree is pending, it can be visited. -/
theorem exists_visits (h : traversal.pending ≠ []) : ∃ next, Visits traversal next := by
  obtain ⟨deepest, pending⟩ := traversal
  obtain ⟨⟨tree, level⟩, rest, rfl⟩ := List.exists_cons_of_ne_nil h
  exact ⟨_, @Visits.visit deepest level tree [] rest _ (.refl _)⟩

/-! ## Whole traversals -/

theorem Run.size_eq (h : Run visits first last) : first.size = visits + last.size := by
  induction h with
  | done => exact (Nat.zero_add _).symm
  | next visit _ ih => rw [visit.size_eq, ih]; omega

theorem Run.reach_eq (h : Run visits first last) : first.reach = last.reach := by
  induction h with
  | done => rfl
  | next visit _ ih => rw [visit.reach_eq, ih]

theorem pending_eq_nil_iff : traversal.pending = [] ↔ traversal.size = 0 := by
  constructor
  · intro nil
    rw [size, nil]
    rfl
  · intro none_left
    refine Classical.byContradiction fun some => ?_
    obtain ⟨next, visit⟩ := exists_visits some
    have := visit.size_eq
    omega

/-- The depth is found by the traversal that visits the first of the pending trees each time. -/
theorem run_depthFrom (deepest : Nat) (pending : List (SyntaxTree × Nat)) :
    Run (sizeOfAll (pending.map Prod.fst)) ⟨deepest, pending⟩ ⟨depthFrom deepest pending, []⟩ := by
  induction deepest, pending using depthFrom.induct with
  | case1 deepest =>
    rw [depthFrom]
    exact .done
  | case2 deepest tree level rest ih =>
    have visit : Visits ⟨deepest, (tree, level) :: rest⟩
        ⟨max deepest level, tree.children.map (·, level + 1) ++ rest⟩ :=
      @Visits.visit deepest level tree [] rest _ (.refl _)
    have fewer := visit.size_eq
    simp only [size] at fewer
    rw [depthFrom, fewer]
    exact .next visit ih

end Traversal

open Traversal (start Visits Run)

/-- A tree without children is a token, an empty sequence or a pair of nothing, and its depth is
one. Every other tree is one deeper than the deepest of its children. The depth is found in whatever
order the nodes are visited: as long as a tree is pending, the traversal can go on; it ends after as
many visits as there are nodes, never sooner or later, and the greatest level that it has met is
then the depth. -/
theorem depth_any_order (tree : SyntaxTree) :
    (tree.children = [] ↔
      (∃ kind value, tree = token kind value) ∨ tree = seq [] ∨ tree = pair none none) ∧
    (tree.children = [] → tree.depth = 1) ∧
    (tree.children ≠ [] → ∃ child ∈ tree.children, tree.depth = 1 + child.depth ∧
      ∀ other ∈ tree.children, other.depth ≤ child.depth) ∧
    Run tree.size (start tree) ⟨tree.depth, []⟩ ∧
    ∀ visits traversal, Run visits (start tree) traversal →
      visits ≤ tree.size ∧
      (traversal.pending = [] ↔ visits = tree.size) ∧
      (traversal.pending = [] → traversal.deepest = tree.depth) ∧
      (traversal.pending ≠ [] → ∃ next, Visits traversal next) := by
  have finds := Traversal.run_depthFrom 0 [(tree, 1)]
  have nodes : (start tree).size = tree.size := Nat.add_zero _
  refine ⟨children_eq_nil_iff tree, ?_, ?_, ?_, ?_⟩
  · intro leaf
    rw [depth_eq_height, height_eq_children, leaf]
    rfl
  · intro inner
    obtain ⟨child, member, deep⟩ := exists_deepest inner
    refine ⟨child, member, ?_, ?_⟩
    · rw [depth_eq_height, depth_eq_height, height_eq_children, deep, Nat.add_comm]
    · simp only [depth_eq_height, ← deep]
      exact heightOfAll_le.mp (Nat.le_refl _)
  · exact nodes ▸ finds
  · intro visits traversal run
    have left := run.size_eq
    have empty : traversal.pending = [] ↔ traversal.size = 0 := Traversal.pending_eq_nil_iff
    refine ⟨by omega, by rw [empty]; omega, ?_, Traversal.exists_visits⟩
    intro nil
    have reached := run.reach_eq.symm.trans finds.reach_eq
    simpa [Traversal.reach, nil, reach, depth] using reached

/-- A pair of a sequence with one token in it and of a token. -/
def lopsided : SyntaxTree := pair (some (seq [token "a" "a"])) (some (token "b" "b"))

/-- The second part of the pair is visited before the first. -/
theorem depth_any_order_lopsided :
    Run 4 (start lopsided) ⟨3, []⟩ ∧ 3 = lopsided.depth := by
  have root : Visits (start lopsided) ⟨1, [(seq [token "a" "a"], 2), (token "b" "b", 2)]⟩ :=
    @Visits.visit 0 1 lopsided [] [] _ (.refl _)
  have second : Visits ⟨1, [(seq [token "a" "a"], 2), (token "b" "b", 2)]⟩
      ⟨2, [(seq [token "a" "a"], 2)]⟩ :=
    @Visits.visit 1 2 (token "b" "b") [(seq [token "a" "a"], 2)] [] _ (.refl _)
  have first : Visits ⟨2, [(seq [token "a" "a"], 2)]⟩ ⟨2, [(token "a" "a", 3)]⟩ :=
    @Visits.visit 2 2 (seq [token "a" "a"]) [] [] _ (.refl _)
  have last : Visits ⟨2, [(token "a" "a", 3)]⟩ ⟨3, []⟩ :=
    @Visits.visit 2 3 (token "a" "a") [] [] _ (.refl _)
  have run : Run 4 (start lopsided) ⟨3, []⟩ :=
    .next root (.next second (.next first (.next last .done)))
  exact ⟨run, ((depth_any_order lopsided).2.2.2.2 4 _ run).2.2.1 rfl⟩

end PseudoLang.SyntaxTree
