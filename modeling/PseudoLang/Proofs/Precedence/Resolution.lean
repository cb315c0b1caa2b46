import PseudoLang.Proofs.Precedence.Association
import PseudoLang.Proofs.Precedence.Roles

/-!
From elements to slots, and the two main results about resolution: a sequence becomes the one
canonical tree over it, and every canonical tree is what its sequence becomes.
-/

namespace PseudoLang.Precedence

open OperatorTree

variable {α : Type} {powers : Powers}

/-! ## Slots -/

theorem Slot.of?_fits {element : Element α} {role : UInt8} {slot : Slot α}
    (h : Slot.of? powers element role = some slot) :
    slot.Fits powers ∧ slot.element = element ∧ slot = .assigned powers element role := by
  unfold Slot.of? at h
  split at h
  · split at h
    · cases h
      exact ⟨trivial, rfl, rfl⟩
    · cases h
  · rename_i name
    split at h
    · rename_i binary
      obtain ⟨⟨left, right⟩, hp, rfl⟩ := Option.map_eq_some_iff.mp h
      refine ⟨hp, rfl, ?_⟩
      simp [Slot.assigned, binary, Powers.left, Powers.right, hp]
    · rename_i binary
      split at h
      · obtain ⟨right, hp, rfl⟩ := Option.map_eq_some_iff.mp h
        refine ⟨hp, rfl, ?_⟩
        simp [Slot.assigned, binary, Powers.before, hp]
      · cases h

theorem slotsFrom_eq_ok {roles : List UInt8} {pairs : List (Element α × UInt8)} :
    ∀ {position : Nat} {slots : List (Slot α)},
      slotsFrom powers roles position pairs = .ok slots →
      (∀ slot ∈ slots, slot.Fits powers) ∧ slots.map Slot.element = pairs.map Prod.fst ∧
      slots = pairs.map fun pair => .assigned powers pair.1 pair.2 := by
  induction pairs with
  | nil =>
    intro position slots h
    cases h
    simp
  | cons pair pairs ih =>
    intro position slots h
    obtain ⟨element, role⟩ := pair
    unfold slotsFrom at h
    split at h
    · rename_i slot hs
      rw [map_eq_pure_bind] at h
      obtain ⟨rest, hr, h⟩ := bind_eq_ok.mp h
      cases h
      obtain ⟨fits, elements, assigned⟩ := ih hr
      obtain ⟨fit, same, one⟩ := Slot.of?_fits hs
      refine ⟨?_, by simp [same, elements], by simp [← one, ← assigned]⟩
      intro slot' hm
      obtain rfl | hm := List.mem_cons.mp hm
      · exact fit
      · exact fits slot' hm
    · cases h

/-- The elements of a tree have the slots of the tree in the roles that they have in it. -/
theorem slotsFrom_walk_append (tree : OperatorTree α) (known : tree.Known powers)
    (roles : List UInt8) : ∀ position tail,
      slotsFrom powers roles position (tree.walk.zip tree.roles ++ tail) =
        (tree.slots powers ++ ·) <$> slotsFrom powers roles (position + tree.walk.length) tail := by
  induction tree with
  | term value => intros; rfl
  | binary operator left right ihl ihr =>
    intro position tail
    obtain ⟨⟨leftPower, rightPower⟩, hp⟩ := Option.isSome_iff_exists.mp known.1
    obtain ⟨el, er⟩ := Powers.left_right_of_fits hp
    rw [walk, OperatorTree.roles, List.zip_append left.length_roles.symm, List.zip_cons_cons,
      List.append_assoc, List.cons_append, ihl known.2.1]
    have one : Slot.of? powers (Element.operator (α := α) operator) binaryRole =
        some (.binary operator leftPower rightPower) := by
      simp [Slot.of?, hp]
    rw [slotsFrom, one, ihr known.2.2]
    simp only [Functor.map_map, OperatorTree.slots, el, er, List.append_assoc, List.cons_append,
      List.length_append, List.length_cons, Nat.add_assoc, Nat.add_comm 1]
  | unary operator operand ih =>
    intro position tail
    obtain ⟨right, hp⟩ := Option.isSome_iff_exists.mp known.1
    have one : Slot.of? powers (Element.operator (α := α) operator) unaryRole =
        some (.unary operator right) := by
      simp [Slot.of?, hp, binaryRole, unaryRole]
    rw [walk, OperatorTree.roles, List.zip_cons_cons, List.cons_append, slotsFrom, one,
      ih known.2]
    simp only [Functor.map_map, OperatorTree.slots, Powers.before_of_fits hp, List.cons_append,
      List.length_cons, Nat.add_assoc, Nat.add_comm 1]

theorem slotsFrom_walk (tree : OperatorTree α) (known : tree.Known powers) (roles : List UInt8)
    (position : Nat) :
    slotsFrom powers roles position (tree.walk.zip tree.roles) = .ok (tree.slots powers) := by
  have h := slotsFrom_walk_append tree known roles position []
  rw [List.append_nil] at h
  rw [h]
  simp [slotsFrom, Functor.map, Except.map]

/-! ## Roles -/

theorem length_narrowFirst (masks : List UInt8) : (narrowFirst masks).length = masks.length := by
  cases masks <;> rfl

theorem length_narrowAll {left : List UInt8} :
    ∀ {current : UInt8} {decided roles : List UInt8},
      narrowAll left current decided = .ok roles →
      roles.length = left.length + 1 + decided.length := by
  induction left with
  | nil =>
    intro current decided roles h
    cases h
    rw [List.length_cons, List.length_nil]
    omega
  | cons neighbour left ih =>
    intro current decided roles h
    unfold narrowAll at h
    split at h
    · have := ih h
      simp only [List.length_cons] at this ⊢
      omega
    · cases h

theorem length_decideRoles {masks roles : List UInt8} (h : decideRoles masks = .ok roles) :
    roles.length = masks.length := by
  unfold decideRoles at h
  dsimp only at h
  split at h
  · cases h
  · rename_i last left hr
    split at h
    · cases h
    split at h
    · cases h
    split at h
    · cases h
    · have := length_narrowAll h
      have := congrArg List.length hr
      rw [List.length_reverse, length_narrowFirst] at this
      simp only [List.length_cons, List.length_nil] at *
      omega

/-! ## Resolution -/

theorem resolve_eq (elements : List (Element α)) :
    resolve powers elements = (do
      let roles ← decideRoles (elements.map (Element.mask powers))
      let slots ← slotsFrom powers roles 0 (elements.zip roles)
      let whole ← expression maxNesting (maxNesting + 1) none slots
      if whole.rest.isEmpty then return whole.tree
      else .error (.associationError whole.rest.length)) := by
  have masks (mask : Element α → UInt8) (h : ∀ element, mask element = element.mask powers) :
      elements.map mask = elements.map (Element.mask powers) :=
    List.map_congr_left fun element _ => h element
  unfold resolve resolveWithin
  dsimp only
  rw [masks _ (by intro element; cases element <;> rfl)]

/-- What resolution has found out when it yields a tree. -/
theorem resolve_eq_ok {elements : List (Element α)} {tree : OperatorTree α}
    (h : resolve powers elements = .ok tree) :
    tree.walk = elements ∧ tree.Known powers ∧ tree.Canonical powers ∧
    ∃ whole : Associated α, whole.tree = tree ∧ whole.rest = [] ∧
      expression maxNesting (maxNesting + 1) none (tree.slots powers) = .ok whole := by
  rw [resolve_eq] at h
  obtain ⟨roles, hroles, h⟩ := bind_eq_ok.mp h
  obtain ⟨slots, hslots, h⟩ := bind_eq_ok.mp h
  obtain ⟨whole, hwhole, h⟩ := bind_eq_ok.mp h
  split at h
  · rename_i empty
    cases h
    have rest : whole.rest = [] := List.isEmpty_iff.mp empty
    obtain ⟨fits, same, -⟩ := slotsFrom_eq_ok hslots
    obtain ⟨reads, -⟩ := expression_reads _ _ _ _ _ fits hwhole
    have consumed : slots = whole.tree.slots powers := by
      rw [reads.consumed, rest, List.append_nil]
    have length := length_decideRoles hroles
    rw [List.length_map] at length
    refine ⟨?_, reads.known, reads.canonical, whole, rfl, rest, consumed ▸ hwhole⟩
    have walk : (whole.tree.slots powers).map Slot.element = whole.tree.walk :=
      whole.tree.map_element_slots
    rw [← walk, ← consumed, same, List.map_fst_zip (Nat.le_of_eq length.symm)]
  · cases h

/-- A canonical tree is found from its slots, unless it is nested too deep. -/
theorem expression_slots {tree : OperatorTree α} (canonical : tree.Canonical powers)
    (limit room : Nat) :
    expression limit room none (tree.slots powers) = .ok ⟨tree, tree.height, []⟩ ∨
    (expression limit room none (tree.slots powers) = .error (.nestingTooDeep limit) ∧
      (limit < tree.height ∨ room ≤ tree.height)) := by
  have found := expression_found limit tree room none [] canonical (fun _ _ => rfl)
    (fun left h => absurd h (not_nextLeft_nil left))
  rw [List.append_nil] at found
  exact found.closed fun left h => absurd h (not_nextLeft_nil left)

/-- Every canonical tree is what its own sequence is resolved to, unless it is nested too deep. -/
theorem resolve_walk {tree : OperatorTree α} (known : tree.Known powers)
    (canonical : tree.Canonical powers) :
    resolve powers tree.walk = .ok tree ∨
    resolve powers tree.walk = .error (.nestingTooDeep maxNesting) := by
  rw [resolve_eq, decideRoles_eq_ok tree.word_roles (tree.allows_roles known), ok_bind,
    slotsFrom_walk tree known, ok_bind]
  obtain found | ⟨deep, -⟩ := expression_slots canonical maxNesting (maxNesting + 1)
  · left
    rw [found]
    rfl
  · right
    rw [deep]
    rfl

/-- Resolution yields the canonical tree over the sequence, and there is no other in which the
operators play the same roles. -/
theorem resolve_unique_canonical {elements : List (Element α)} {tree : OperatorTree α}
    (h : resolve powers elements = .ok tree) :
    tree.walk = elements ∧ tree.Known powers ∧ tree.Canonical powers ∧
    ∀ other : OperatorTree α, other.walk = elements → other.roles = tree.roles →
      other.Canonical powers → other = tree := by
  obtain ⟨walk, known, canonical, whole, same, -, hwhole⟩ := resolve_eq_ok h
  refine ⟨walk, known, canonical, ?_⟩
  intro other hwalk hroles hcanonical
  have slots : tree.slots powers = other.slots powers := by
    rw [slots_eq_zipWith, slots_eq_zipWith, walk, hwalk, hroles]
  rw [slots] at hwhole
  obtain found | ⟨deep, -⟩ := expression_slots hcanonical maxNesting (maxNesting + 1)
  · rw [hwhole] at found
    cases found
    exact same
  · rw [hwhole] at deep
    cases deep

/-- In `a * NOT b = c` the loosest of the three operators stands inside the tightest one. -/
theorem resolve_times_not :
    ∃ tree : OperatorTree String,
      resolve .language [.term "a", .operator "*", .operator "NOT", .term "b", .operator "=",
        .term "c"] = .ok tree ∧
      tree.walk = [.term "a", .operator "*", .operator "NOT", .term "b", .operator "=",
        .term "c"] ∧
      tree.Canonical .language ∧
      ∀ other : OperatorTree String,
        other.walk = [.term "a", .operator "*", .operator "NOT", .term "b", .operator "=",
          .term "c"] →
        other.roles = tree.roles → other.Canonical .language → other = tree := by
  have resolved : resolve .language [.term "a", .operator "*", .operator "NOT", .term "b",
      .operator "=", .term "c"] =
      .ok (.binary "*" (.term "a") (.unary "NOT" (.binary "=" (.term "b") (.term "c")))) := by
    decide +kernel
  obtain ⟨walk, -, canonical, unique⟩ := resolve_unique_canonical resolved
  exact ⟨_, resolved, walk, canonical, unique⟩

end PseudoLang.Precedence
