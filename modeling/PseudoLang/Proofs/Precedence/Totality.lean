import PseudoLang.Proofs.Precedence.Resolution

/-!
Resolution fails in two ways only: no roles can be decided for the elements, or operators nest too
deep (`resolve_eq_error`). Roles that are decided make up a word (`word_of_decideRoles`), every
element has a slot in its role, and association takes all the slots of a word.
-/

namespace PseudoLang.Precedence

variable {α : Type} {powers : Powers}

/-! ## Roles that are decided -/

/-- The roles of an element: those of a term, or at least one of an operator. -/
def Usable (mask : UInt8) : Prop :=
  mask = termRole ∨ mask = binaryRole ∨ mask = unaryRole ∨ mask = eitherRole

/-- A role that is found is one that the element can take, and it may stand where it does. -/
theorem narrow_sound {neighbour mask role : UInt8} (usable : Usable mask)
    (h : narrow neighbour mask = .ok role) :
    Allows mask role ∧ ∀ left, Allows neighbour left → Adjacent left role := by
  unfold narrow at h
  split at h
  · rename_i term
    split at h
    · cases h
    · rename_i binary
      cases h
      refine ⟨?_, ?_⟩
      · obtain rfl | rfl | rfl | rfl := usable
        · exact absurd rfl binary
        · exact .inl rfl
        · exact absurd rfl binary
        · exact .inr ⟨rfl, .inl rfl⟩
      · intro left allows
        rw [Adjacent, if_pos (allows.term_iff.mp term)]
  · rename_i other
    have adjacent {left : UInt8} (allows : Allows neighbour left) {right : UInt8}
        (operand : right = termRole ∨ right = unaryRole) : Adjacent left right := by
      rwa [Adjacent, if_neg (mt allows.term_iff.mpr other)]
    split at h
    · rename_i either
      cases h
      exact ⟨.inr ⟨either, .inr rfl⟩, fun left allows => adjacent allows (.inr rfl)⟩
    · rename_i single
      split at h
      · cases h
      · rename_i prefixed
        cases h
        refine ⟨.inl rfl, fun left allows => adjacent allows ?_⟩
        obtain rfl | rfl | rfl | rfl := usable
        · exact .inl rfl
        · exact absurd rfl prefixed
        · exact .inr rfl
        · exact absurd rfl single

/-- Narrowing from right to left yields a chain of roles. The lists run from right to left. -/
theorem narrowAll_sound {left : List UInt8} :
    ∀ {current : UInt8} {decided roles : List UInt8},
      (∀ mask ∈ current :: left, Usable mask) →
      (∀ mask ∈ (current :: left).getLast?, mask = termRole ∨ mask = unaryRole) →
      narrowAll left current decided = .ok roles →
      ∃ role before, roles = before.reverse ++ role :: decided ∧
        List.Forall₂ Allows (current :: left) (role :: before) ∧
        (role :: before).IsChain (fun right left => Adjacent left right) ∧
        ∀ first ∈ (role :: before).getLast?, first = termRole ∨ first = unaryRole := by
  induction left with
  | nil =>
    intro current decided roles _ first h
    cases h
    exact ⟨current, [], rfl, .cons (.inl rfl) .nil, List.isChain_singleton _, first⟩
  | cons neighbour left ih =>
    intro current decided roles usable first h
    obtain ⟨here, rest⟩ := List.forall_mem_cons.mp usable
    rw [List.getLast?_cons_cons] at first
    unfold narrowAll at h
    split at h
    · rename_i role narrowed
      obtain ⟨allows, adjacent⟩ := narrow_sound here narrowed
      obtain ⟨next, before, rfl, allowed, chain, starts⟩ := ih rest first h
      obtain ⟨next_allowed, -⟩ := List.forall₂_cons.mp allowed
      refine ⟨role, next :: before, by simp, .cons allows allowed, ?_, ?_⟩
      · exact List.isChain_cons_cons.mpr ⟨adjacent next next_allowed, chain⟩
      · rwa [List.getLast?_cons_cons]
    · cases h

/-- If no element is without a role, all of them can take one, and the first can take just one. -/
theorem usable_narrowFirst {masks : List UInt8} (usable : ∀ mask ∈ masks, mask = 0 ∨ Usable mask)
    (all : roleless (narrowFirst masks) = []) :
    (∀ mask ∈ narrowFirst masks, Usable mask) ∧
    ∀ mask ∈ (narrowFirst masks).head?,
      mask = binaryRole ∨ mask = termRole ∨ mask = unaryRole := by
  have nonzero := roleless_eq_nil_iff.mp all
  cases masks with
  | nil => simp [narrowFirst]
  | cons first masks =>
    obtain ⟨here, rest⟩ := List.forall_mem_cons.mp usable
    rw [narrowFirst] at nonzero ⊢
    obtain ⟨nonzero_first, nonzero⟩ := List.forall_mem_cons.mp nonzero
    have tail : ∀ mask ∈ masks, Usable mask :=
      fun mask member => (rest mask member).resolve_left (nonzero mask member)
    by_cases either : first = eitherRole
    · simp only [if_pos either] at nonzero_first ⊢
      exact ⟨List.forall_mem_cons.mpr ⟨.inr (.inr (.inl rfl)), tail⟩, by simp⟩
    · simp only [if_neg either] at nonzero_first ⊢
      have usable_first : Usable first := here.resolve_left nonzero_first
      refine ⟨List.forall_mem_cons.mpr ⟨usable_first, tail⟩, ?_⟩
      rintro _ ⟨⟩
      obtain term | binary | unary | both := usable_first
      · exact .inr (.inl term)
      · exact .inl binary
      · exact .inr (.inr unary)
      · exact absurd both either

theorem allows_of_narrowFirst {masks roles : List UInt8}
    (allows : List.Forall₂ Allows (narrowFirst masks) roles) : List.Forall₂ Allows masks roles := by
  cases masks with
  | nil => exact allows
  | cons first masks =>
    rw [narrowFirst] at allows
    obtain ⟨role, rest, allowed, follows, rfl⟩ := List.forall₂_cons_left_iff.mp allows
    refine .cons ?_ follows
    split at allowed
    · rename_i either
      obtain rfl | ⟨no, -⟩ := allowed
      · exact .inr ⟨either, .inr rfl⟩
      · exact absurd no (by decide)
    · exact allowed

/-- Roles that are decided make up a word, and are roles that the elements can take. -/
theorem word_of_decideRoles {masks roles : List UInt8}
    (usable : ∀ mask ∈ masks, mask = 0 ∨ Usable mask) (h : decideRoles masks = .ok roles) :
    Word roles ∧ List.Forall₂ Allows masks roles := by
  unfold decideRoles at h
  dsimp only at h
  split at h
  · cases h
  · rename_i last left reversed
    split at h
    · cases h
    rename_i starts
    split at h
    · cases h
    rename_i ends
    split at h
    · cases h
    rename_i all
    obtain ⟨whole, single⟩ := usable_narrowFirst usable (not_not.mp all)
    have same : (last :: left).getLast? = (narrowFirst masks).head? := by
      rw [← reversed, List.getLast?_reverse]
    have usable' : ∀ mask ∈ last :: left, Usable mask := by
      intro mask member
      rw [← reversed, List.mem_reverse] at member
      exact whole mask member
    have first : ∀ mask ∈ (last :: left).getLast?, mask = termRole ∨ mask = unaryRole := by
      intro mask head
      rw [same] at head
      apply (single mask head).resolve_left
      rintro rfl
      exact starts head
    obtain ⟨role, before, rfl, allows, chain, begins⟩ := narrowAll_sound usable' first h
    obtain ⟨allowed, -⟩ := List.forall₂_cons.mp allows
    have term : role = termRole := allowed.term_iff.mp (not_not.mp ends)
    rw [← List.reverse_cons]
    constructor
    · constructor
      · rwa [List.head?_reverse]
      · rw [List.getLast?_reverse, term]
        rfl
      · rwa [List.isChain_reverse]
    · apply allows_of_narrowFirst
      rw [← List.reverse_reverse (narrowFirst masks), reversed]
      exact List.rel_reverse allows

/-! ## Slots in their roles -/

instance (mask role : UInt8) : Decidable (Allows mask role) := inferInstanceAs (Decidable (_ ∨ _))

theorem Powers.usable_roles (powers : Powers) (name : String) :
    powers.roles name = 0 ∨ Usable (powers.roles name) := by
  unfold Powers.roles Usable
  split <;> split <;> decide

theorem Element.usable_mask (powers : Powers) (element : Element α) :
    element.mask powers = 0 ∨ Usable (element.mask powers) := by
  cases element with
  | term => exact .inr (.inl rfl)
  | operator name => exact powers.usable_roles name

theorem Powers.not_allows_term (powers : Powers) (name : String) :
    ¬ Allows (powers.roles name) termRole := by
  unfold Powers.roles
  split <;> split <;> decide

theorem Powers.isSome_binary {name : String} (h : Allows (powers.roles name) binaryRole) :
    (powers.binary? name).isSome := by
  unfold Powers.roles at h
  split at h
  · assumption
  · split at h <;> exact absurd h (by decide)

theorem Powers.isSome_unary {name : String} (h : Allows (powers.roles name) unaryRole) :
    (powers.unary? name).isSome := by
  unfold Powers.roles at h
  split at h
  all_goals
    split at h
    · assumption
    · exact absurd h (by decide)

/-- The role of a slot. -/
def Slot.role : Slot α → UInt8
  | term _ => termRole
  | binary .. => binaryRole
  | unary .. => unaryRole

theorem Slot.role_eq_term {slot : Slot α} : slot.role = termRole ↔ ∃ value, slot = .term value := by
  cases slot <;> simp [role, termRole, binaryRole, unaryRole]

theorem Slot.role_eq_binary {slot : Slot α} :
    slot.role = binaryRole ↔ ∃ operator left right, slot = .binary operator left right := by
  cases slot <;> simp [role, termRole, binaryRole, unaryRole]

theorem Slot.role_eq_unary {slot : Slot α} :
    slot.role = unaryRole ↔ ∃ operator right, slot = .unary operator right := by
  cases slot <;> simp [role, termRole, binaryRole, unaryRole]

theorem Slot.of?_eq_some {element : Element α} {role : UInt8}
    (allows : Allows (element.mask powers) role)
    (proper : role = termRole ∨ role = binaryRole ∨ role = unaryRole) :
    ∃ slot, Slot.of? powers element role = some slot ∧ slot.role = role := by
  cases element with
  | term value =>
    obtain rfl := allows.term_iff.mp rfl
    exact ⟨.term value, rfl, rfl⟩
  | operator name =>
    rw [Element.mask] at allows
    obtain rfl | rfl | rfl := proper
    · exact absurd allows (powers.not_allows_term name)
    · obtain ⟨⟨left, right⟩, known⟩ := Option.isSome_iff_exists.mp (Powers.isSome_binary allows)
      exact ⟨.binary name left right, by simp [of?, known], rfl⟩
    · obtain ⟨right, known⟩ := Option.isSome_iff_exists.mp (Powers.isSome_unary allows)
      exact ⟨.unary name right, by simp [of?, known, unaryRole, binaryRole], rfl⟩

/-- Elements that can take the roles of a word have slots in these roles. -/
theorem slotsFrom_total (all : List UInt8) {elements : List (Element α)} {roles : List UInt8}
    (proper : ∀ role ∈ roles, role = termRole ∨ role = binaryRole ∨ role = unaryRole) :
    ∀ position : Nat, List.Forall₂ Allows (elements.map (Element.mask powers)) roles →
      ∃ slots, slotsFrom powers all position (elements.zip roles) = .ok slots ∧
        slots.map Slot.role = roles := by
  induction elements generalizing roles with
  | nil =>
    intro position allows
    obtain rfl := List.forall₂_nil_left_iff.mp allows
    exact ⟨[], rfl, rfl⟩
  | cons element elements ih =>
    intro position allows
    obtain ⟨role, roles, allowed, rest, rfl⟩ := List.forall₂_cons_left_iff.mp allows
    obtain ⟨here, later⟩ := List.forall_mem_cons.mp proper
    obtain ⟨slot, one, same⟩ := Slot.of?_eq_some allowed here
    obtain ⟨slots, more, same_rest⟩ := ih later (position + 1) rest
    refine ⟨slot :: slots, ?_, by rw [List.map_cons, same, same_rest]⟩
    rw [List.zip_cons_cons, slotsFrom, one, more]
    rfl

/-! ## Association takes a whole word -/

/-- A word is a term, or one with an operator and a word after it, or an operator before a word. -/
theorem Word.cases {roles : List UInt8} (h : Word roles) :
    roles = [termRole] ∨ (∃ rest, roles = termRole :: binaryRole :: rest ∧ Word rest) ∨
    ∃ rest, roles = unaryRole :: rest ∧ Word rest := by
  obtain ⟨first, last, adjacent⟩ := h
  cases roles with
  | nil => cases last
  | cons role rest =>
    obtain rfl | rfl := first role rfl
    · cases rest with
      | nil => exact .inl rfl
      | cons next rest =>
        rw [List.isChain_cons_cons, Adjacent, if_pos rfl] at adjacent
        obtain ⟨rfl, adjacent⟩ := adjacent
        rw [List.getLast?_cons_cons] at last
        cases rest with
        | nil => exact absurd last (by decide)
        | cons after rest =>
          rw [List.isChain_cons_cons, Adjacent, if_neg (by decide)] at adjacent
          rw [List.getLast?_cons_cons] at last
          exact .inr (.inl ⟨_, rfl, ⟨by simpa using adjacent.1, last, adjacent.2⟩⟩)
    · cases rest with
      | nil => exact absurd last (by decide)
      | cons next rest =>
        rw [List.isChain_cons_cons, Adjacent, if_neg (by decide)] at adjacent
        rw [List.getLast?_cons_cons] at last
        exact .inr (.inr ⟨_, rfl, ⟨by simpa using adjacent.1, last, adjacent.2⟩⟩)

/-- Nothing is left, or an operator between two operands and then a word. -/
def Continues (slots : List (Slot α)) : Prop :=
  slots = [] ∨ ∃ operator left right tail,
    slots = .binary operator left right :: tail ∧ Word (tail.map Slot.role)

/-- Slots whose roles are a word begin with a term that they go on from, or with an operator before
such slots. -/
theorem Word.slots {slots : List (Slot α)} (h : Word (slots.map Slot.role)) :
    (∃ value rest, slots = .term value :: rest ∧ Continues rest) ∨
    ∃ operator right rest, slots = .unary operator right :: rest ∧ Word (rest.map Slot.role) := by
  obtain one | ⟨roles, joined, after⟩ | ⟨roles, before, after⟩ := h.cases
  · obtain ⟨slot, rest, rfl, role, none⟩ := List.map_eq_cons_iff.mp one
    obtain ⟨value, rfl⟩ := Slot.role_eq_term.mp role
    exact .inl ⟨value, rest, rfl, .inl (List.map_eq_nil_iff.mp none)⟩
  · obtain ⟨slot, rest, rfl, role, more⟩ := List.map_eq_cons_iff.mp joined
    obtain ⟨value, rfl⟩ := Slot.role_eq_term.mp role
    obtain ⟨next, tail, rfl, role, rfl⟩ := List.map_eq_cons_iff.mp more
    obtain ⟨operator, left, right, rfl⟩ := Slot.role_eq_binary.mp role
    exact .inl ⟨value, _, rfl, .inr ⟨operator, left, right, tail, rfl, after⟩⟩
  · obtain ⟨slot, rest, rfl, role, rfl⟩ := List.map_eq_cons_iff.mp before
    obtain ⟨operator, right, rfl⟩ := Slot.role_eq_unary.mp role
    exact .inr ⟨operator, right, rest, rfl, after⟩

/-- Reading stops where it can go on, unless operators nest too deep. -/
def ReadsOn (limit : Nat) (result : Except Cause (Associated α)) : Prop :=
  result = .error (.nestingTooDeep limit) ∨ ∃ whole, result = .ok whole ∧ Continues whole.rest

/-- A reader that can read every word. -/
def ReadsWords (limit : Nat) (read : Reader α) : Prop :=
  ∀ binding slots, Word (slots.map Slot.role) → ReadsOn limit (read binding slots)

theorem ReadsOn.bind {limit : Nat} {result : Except Cause (Associated α)}
    {next : Associated α → Except Cause (Associated α)} (h : ReadsOn limit result)
    (hn : ∀ whole, Continues whole.rest → ReadsOn limit (next whole)) :
    ReadsOn limit (result >>= next) := by
  obtain rfl | ⟨whole, rfl, goes_on⟩ := h
  · exact .inl rfl
  · exact hn whole goes_on

theorem readsOn_grow {limit height : Nat} {next : Nat → Except Cause (Associated α)}
    (h : ∀ grown, ReadsOn limit (next grown)) : ReadsOn limit (grow limit height >>= next) := by
  obtain grown | ⟨deep, -⟩ := grow_cases limit height
  · rw [grown]
    exact h (height + 1)
  · rw [deep]
    exact .inl rfl

theorem operand_readsOn {nested : Reader α} {limit : Nat} (hn : ReadsWords limit nested)
    {slots : List (Slot α)} (word : Word (slots.map Slot.role)) :
    ReadsOn limit (operand nested limit slots) := by
  obtain ⟨value, rest, rfl, goes_on⟩ | ⟨operator, right, rest, rfl, after⟩ := word.slots
  · exact .inr ⟨_, rfl, goes_on⟩
  · rw [operand]
    apply (hn (some right) rest after).bind
    intro inner goes_on
    exact readsOn_grow fun _ => .inr ⟨_, rfl, goes_on⟩

theorem climb_readsOn {nested : Reader α} {limit : Nat} (hn : ReadsWords limit nested)
    {binding : Option Nat} :
    ∀ (fuel : Nat) (left : Associated α), Continues left.rest →
      ReadsOn limit (climb nested limit binding fuel left) := by
  intro fuel
  induction fuel with
  | zero => exact fun left goes_on => .inr ⟨left, rfl, goes_on⟩
  | succ fuel ih =>
    intro left goes_on
    rw [climb]
    split
    · rename_i operator leftPower rightPower rest next
      split
      · exact .inr ⟨left, rfl, goes_on⟩
      · rw [next] at goes_on
        obtain none | ⟨_, _, _, tail, same, word⟩ := goes_on
        · cases none
        obtain ⟨-, rfl⟩ := List.cons.inj same
        apply (hn (some rightPower) rest word).bind
        intro right goes_on
        exact readsOn_grow fun _ => ih _ goes_on
    · exact .inr ⟨left, rfl, goes_on⟩

theorem expression_readsOn (limit : Nat) :
    ∀ room, ReadsWords limit (expression (α := α) limit room) := by
  intro room
  induction room with
  | zero => exact fun _ _ _ => .inl rfl
  | succ room ih =>
    intro binding slots word
    exact (operand_readsOn ih word).bind fun first goes_on => climb_readsOn ih _ first goes_on

/-! ## How resolution fails -/

/-- Elements whose roles are decided have slots in these roles, which make up a word. -/
theorem exists_slots_of_decideRoles {elements : List (Element α)} {roles : List UInt8}
    (decided : decideRoles (elements.map (Element.mask powers)) = .ok roles) :
    ∃ slots, slotsFrom powers roles 0 (elements.zip roles) = .ok slots ∧
      Word (slots.map Slot.role) := by
  have usable : ∀ mask ∈ elements.map (Element.mask powers), mask = 0 ∨ Usable mask := by
    intro mask member
    obtain ⟨element, -, rfl⟩ := List.mem_map.mp member
    exact element.usable_mask powers
  obtain ⟨word, allows⟩ := word_of_decideRoles usable decided
  obtain ⟨slots, assigned, same⟩ := slotsFrom_total roles word.role 0 allows
  exact ⟨slots, assigned, same ▸ word⟩

/-- Nothing binds a whole expression, so that no operator ends it. -/
theorem Continues.eq_nil {rest : List (Slot α)} (goes_on : Continues rest)
    (ends : ∀ left, NextLeft rest left → stops none left = true) : rest = [] := by
  obtain none | ⟨operator, left, right, tail, next, -⟩ := goes_on
  · exact none
  · cases ends left ⟨operator, right, tail, next⟩

/-- Resolution fails for want of roles, or because operators nest too deep: no element is without
a slot in its role, and no slots are left over. -/
theorem resolve_eq_error {elements : List (Element α)} {cause : Cause}
    (h : resolve powers elements = .error cause) :
    cause = .nestingTooDeep maxNesting ∨
    decideRoles (elements.map (Element.mask powers)) = .error cause := by
  rw [resolve_eq] at h
  cases decided : decideRoles (elements.map (Element.mask powers)) with
  | error other =>
    rw [decided, error_bind] at h
    cases h
    exact .inr rfl
  | ok roles =>
    left
    obtain ⟨slots, assigned, word⟩ := exists_slots_of_decideRoles decided
    rw [decided, ok_bind, assigned, ok_bind] at h
    obtain deep | ⟨whole, read, goes_on⟩ :=
      expression_readsOn maxNesting (maxNesting + 1) none _ word
    · rw [deep, error_bind] at h
      cases h
      rfl
    · obtain ⟨-, ends⟩ := expression_reads _ _ _ _ _ (slotsFrom_eq_ok assigned).1 read
      rw [read, ok_bind, goes_on.eq_nil ends] at h
      cases h

/-- Why no roles can be decided for a sequence of terms and operators. -/
inductive Unreadable : String → Prop
  | starts : Unreadable "expression starts with an infix operator"
  | ends : Unreadable "expression ends with an operator"
  | neither : Unreadable "operator is neither infix nor prefix"
  | afterTerm : Unreadable "a term must be followed by an infix operator"
  | afterOperator : Unreadable "an operator cannot be followed by an infix operator"

/-- None of these is a fault of the resolution itself. -/
theorem Unreadable.not_internal {message : String} (h : Unreadable message) :
    message ≠ "empty expression" ∧ message ≠ "inconsistent classification" := by
  cases h <;> decide

theorem narrow_eq_error {neighbour mask : UInt8} {message : String}
    (h : narrow neighbour mask = .error message) : Unreadable message := by
  unfold narrow at h
  split at h
  · split at h
    · cases h
      exact .afterTerm
    · cases h
  · split at h
    · cases h
    · split at h
      · cases h
        exact .afterOperator
      · cases h

theorem narrowAll_eq_error {left : List UInt8} {cause : Cause} :
    ∀ {current : UInt8} {decided : List UInt8}, narrowAll left current decided = .error cause →
      ∃ message positions masks,
        cause = .contradiction message positions masks ∧ Unreadable message := by
  induction left with
  | nil =>
    intro current decided h
    cases h
  | cons neighbour left ih =>
    intro current decided h
    unfold narrowAll at h
    split at h
    · exact ih h
    · rename_i message narrowed
      cases h
      exact ⟨_, _, _, rfl, narrow_eq_error narrowed⟩

/-- The roles of at least one element are decided, or it is said why they cannot be. -/
theorem decideRoles_eq_error {masks : List UInt8} {cause : Cause} (some : masks ≠ [])
    (h : decideRoles masks = .error cause) :
    ∃ message positions masks,
      cause = .contradiction message positions masks ∧ Unreadable message := by
  unfold decideRoles at h
  dsimp only at h
  split at h
  · rename_i none
    have length := length_narrowFirst masks
    rw [List.reverse_eq_nil_iff.mp none] at length
    exact absurd (List.eq_nil_of_length_eq_zero length.symm) some
  · split at h
    · cases h
      exact ⟨_, _, _, rfl, .starts⟩
    split at h
    · cases h
      exact ⟨_, _, _, rfl, .ends⟩
    split at h
    · cases h
      exact ⟨_, _, _, rfl, .neither⟩
    · exact narrowAll_eq_error h

end PseudoLang.Precedence
