import PseudoLang.Proofs.Precedence.Totality

/-!
How deep operators may nest. `Associates` is association without any limit; it makes exactly one
tree of every word (`Associates.unique`, `exists_associates`). Resolution yields that tree if it is
no higher than the limit, and otherwise says that operators nest too deep (`resolve_exact`): the
room for expressions inside each other never runs out for a tree that is low enough.
-/

namespace PseudoLang.Precedence

open OperatorTree

variable {α : Type} {powers : Powers}

/-! ## Association without a limit -/

/-- What becomes of a sequence if nothing limits how deep operators nest: a tree, and the sequence
after it. The tree that has been read so far is given, if there is one. -/
inductive Associates : Option Nat → Option (OperatorTree α) → List (Slot α) → OperatorTree α →
    List (Slot α) → Prop
  /-- A term is an operand. -/
  | term {binding : Option Nat} {value : α} {slots rest : List (Slot α)} {tree : OperatorTree α} :
      Associates binding (some (.term value)) slots tree rest →
      Associates binding none (.term value :: slots) tree rest
  /-- An operator with all that binds tighter than it does is an operand. -/
  | unary {binding : Option Nat} {operator : String} {right : Nat}
      {slots between rest : List (Slot α)} {operand tree : OperatorTree α} :
      Associates (some right) none slots operand between →
      Associates binding (some (.unary operator operand)) between tree rest →
      Associates binding none (.unary operator right :: slots) tree rest
  /-- An operator in reach takes all that binds tighter than it does as its right operand. -/
  | binary {binding : Option Nat} {operator : String} {leftPower rightPower : Nat}
      {slots between rest : List (Slot α)} {left right tree : OperatorTree α} :
      stops binding leftPower = false →
      Associates (some rightPower) none slots right between →
      Associates binding (some (.binary operator left right)) between tree rest →
      Associates binding (some left) (.binary operator leftPower rightPower :: slots) tree rest
  /-- No operator in reach follows. -/
  | done {binding : Option Nat} {rest : List (Slot α)} {tree : OperatorTree α} :
      (∀ left, NextLeft rest left → stops binding left = true) →
      Associates binding (some tree) rest tree rest

namespace Associates

variable {binding : Option Nat} {begun : Option (OperatorTree α)} {slots rest : List (Slot α)}
  {tree : OperatorTree α}

theorem unique (h : Associates binding begun slots tree rest) :
    ∀ {other : OperatorTree α} {after : List (Slot α)},
      Associates binding begun slots other after → other = tree ∧ after = rest := by
  induction h with
  | term _ ih =>
    intro other after h
    cases h with
    | term h => exact ih h
  | unary _ _ ihOperand ih =>
    intro other after h
    cases h with
    | unary operand h =>
      obtain ⟨rfl, rfl⟩ := ihOperand operand
      exact ih h
  | binary reach _ _ ihRight ih =>
    intro other after h
    cases h with
    | binary _ right h =>
      obtain ⟨rfl, rfl⟩ := ihRight right
      exact ih h
    | done ends =>
      rw [ends _ (nextLeft_cons.mpr rfl)] at reach
      cases reach
  | done ends =>
    intro other after h
    cases h with
    | binary reach =>
      rw [ends _ (nextLeft_cons.mpr rfl)] at reach
      cases reach
    | done => exact ⟨rfl, rfl⟩

/-- What has been read of a sequence when association goes on: nothing, or a tree. -/
def Begun (powers : Powers) (binding : Option Nat) (all : List (Slot α)) :
    Option (OperatorTree α) → List (Slot α) → Prop
  | none, slots => all = slots
  | some left, slots => Reads powers binding all ⟨left, left.height, slots⟩

/-- Association yields a canonical tree of what it has taken. -/
theorem reads {all : List (Slot α)} (h : Associates binding begun slots tree rest)
    (fits : ∀ slot ∈ all, slot.Fits powers) (start : Begun powers binding all begun slots) :
    Reads powers binding all ⟨tree, tree.height, rest⟩ ∧
      Ends binding ⟨tree, tree.height, rest⟩ := by
  induction h generalizing all with
  | term _ ih =>
    subst start
    exact ih fits .term
  | @unary _ operator right _ _ _ _ _ _ _ ihOperand ih =>
    subst start
    obtain ⟨inner, ends⟩ := ihOperand (fun slot member => fits slot (by simp [member])) rfl
    have known : powers.unary? operator = some right := fits (.unary operator right) (by simp)
    exact ih fits (inner.unary known ends)
  | @binary _ operator leftPower rightPower _ _ _ _ _ _ reach _ _ ihRight ih =>
    have later (slot : Slot α) (member : slot ∈ .binary operator leftPower rightPower :: _) :
        slot.Fits powers :=
      fits slot (by rw [start.consumed]; exact List.mem_append_right _ member)
    obtain ⟨right, ends⟩ := ihRight (fun slot member => later slot (.tail _ member)) rfl
    have known : powers.binary? operator = some (leftPower, rightPower) :=
      later (.binary operator leftPower rightPower) (.head _)
    exact ih fits (start.extend rfl known reach right ends)
  | done ends => exact ⟨start, ends⟩

end Associates

/-- Association without a limit takes a word, or what may follow a term, from its front. -/
theorem exists_associates_within (size : Nat) : ∀ slots : List (Slot α), slots.length ≤ size →
    (Word (slots.map Slot.role) → ∀ binding, ∃ tree rest,
      Associates binding none slots tree rest ∧ Continues rest ∧ rest.length ≤ slots.length) ∧
    (Continues slots → ∀ binding left, ∃ tree rest,
      Associates binding (some left) slots tree rest ∧ Continues rest ∧
        rest.length ≤ slots.length) := by
  induction size with
  | zero =>
    intro slots bound
    obtain rfl := List.eq_nil_of_length_eq_zero (Nat.le_zero.mp bound)
    refine ⟨fun word => ?_, fun goes_on binding left => ?_⟩
    · cases word.last
    · exact ⟨left, [], .done fun power next => absurd next (not_nextLeft_nil power), goes_on,
        Nat.le_refl _⟩
  | succ size ih =>
    intro slots bound
    constructor
    · intro word binding
      obtain ⟨value, after, rfl, goes_on⟩ | ⟨operator, right, after, rfl, inner⟩ := word.slots
      · rw [List.length_cons] at bound
        obtain ⟨tree, rest, read, goes_on, shorter⟩ :=
          (ih after (by omega)).2 goes_on binding (.term value)
        exact ⟨tree, rest, .term read, goes_on, by rw [List.length_cons]; omega⟩
      · rw [List.length_cons] at bound
        obtain ⟨operand, between, taken, goes_on, shorter⟩ :=
          (ih after (by omega)).1 inner (some right)
        obtain ⟨tree, rest, read, goes_on, shorter'⟩ :=
          (ih between (by omega)).2 goes_on binding (.unary operator operand)
        exact ⟨tree, rest, .unary taken read, goes_on, by rw [List.length_cons]; omega⟩
    · intro goes_on binding left
      obtain rfl | ⟨operator, leftPower, rightPower, after, rfl, word⟩ := id goes_on
      · exact ⟨left, [], .done fun power next => absurd next (not_nextLeft_nil power), goes_on,
          Nat.le_refl _⟩
      · by_cases reach : stops binding leftPower = true
        · refine ⟨left, _, .done fun power next => ?_, goes_on, Nat.le_refl _⟩
          rwa [nextLeft_cons.mp next]
        · rw [List.length_cons] at bound
          obtain ⟨right, between, taken, goes_on, shorter⟩ :=
            (ih after (by omega)).1 word (some rightPower)
          obtain ⟨tree, rest, read, goes_on, shorter'⟩ :=
            (ih between (by omega)).2 goes_on binding (.binary operator left right)
          exact ⟨tree, rest, .binary (by simpa using reach) taken read, goes_on,
            by rw [List.length_cons]; omega⟩

/-- Where nothing binds the expression, association takes all of a word. -/
theorem exists_associates {slots : List (Slot α)} (word : Word (slots.map Slot.role))
    (fits : ∀ slot ∈ slots, slot.Fits powers) :
    ∃ tree, Associates none none slots tree [] ∧ slots = tree.slots powers ∧
      tree.Canonical powers := by
  obtain ⟨tree, rest, read, goes_on, -⟩ :=
    (exists_associates_within slots.length slots (Nat.le_refl _)).1 word none
  obtain ⟨reads, ends⟩ := read.reads fits rfl
  obtain rfl := goes_on.eq_nil ends
  exact ⟨tree, read, by simpa using reads.consumed, reads.canonical⟩

/-! ## The height of what is read -/

/-- A reader whose results know their height, which is within the limit. -/
def ReadsLow (limit : Nat) (read : Reader α) : Prop :=
  ∀ binding slots whole, read binding slots = .ok whole →
    whole.height = whole.tree.height ∧ whole.tree.height ≤ limit

theorem grow_eq_ok {limit height grown : Nat} (h : grow limit height = .ok grown) :
    grown = height + 1 ∧ height + 1 ≤ limit := by
  unfold grow at h
  split at h
  · cases h
  · cases h
    exact ⟨rfl, by omega⟩

theorem operand_low {nested : Reader α} {limit : Nat} (hn : ReadsLow limit nested)
    {slots : List (Slot α)} {whole : Associated α} (h : operand nested limit slots = .ok whole) :
    whole.height = whole.tree.height ∧ whole.tree.height ≤ limit := by
  unfold operand at h
  split at h
  · cases h
    exact ⟨rfl, Nat.zero_le _⟩
  · obtain ⟨inner, read, h⟩ := bind_eq_ok.mp h
    obtain ⟨height, grown, h⟩ := bind_eq_ok.mp h
    cases h
    obtain ⟨same, -⟩ := hn _ _ _ read
    obtain ⟨rfl, low⟩ := grow_eq_ok grown
    rw [same] at low ⊢
    exact ⟨rfl, low⟩
  · cases h
  · cases h

theorem climb_low {nested : Reader α} {limit : Nat} (hn : ReadsLow limit nested)
    {binding : Option Nat} :
    ∀ (fuel : Nat) (left whole : Associated α),
      left.height = left.tree.height → left.tree.height ≤ limit →
      climb nested limit binding fuel left = .ok whole →
      whole.height = whole.tree.height ∧ whole.tree.height ≤ limit := by
  intro fuel
  induction fuel with
  | zero =>
    intro left whole same low h
    cases h
    exact ⟨same, low⟩
  | succ fuel ih =>
    intro left whole same low h
    rw [climb] at h
    split at h
    · split at h
      · cases h
        exact ⟨same, low⟩
      · obtain ⟨right, read, h⟩ := bind_eq_ok.mp h
        obtain ⟨height, grown, h⟩ := bind_eq_ok.mp h
        obtain ⟨same', -⟩ := hn _ _ _ read
        obtain ⟨rfl, low'⟩ := grow_eq_ok grown
        rw [same, same'] at low' h
        exact ih ⟨.binary _ left.tree right.tree, _, right.rest⟩ whole rfl low' h
    · cases h
      exact ⟨same, low⟩

theorem expression_low (limit : Nat) : ∀ room, ReadsLow limit (expression (α := α) limit room) := by
  intro room
  induction room with
  | zero =>
    intro binding slots whole h
    cases h
  | succ room ih =>
    intro binding slots whole h
    obtain ⟨first, read, h⟩ := bind_eq_ok.mp h
    obtain ⟨same, low⟩ := operand_low ih read
    exact climb_low ih _ _ _ same low h

/-- A canonical tree is found from its slots exactly if it is no higher than the limit. That so
many expressions may be read inside each other is no further restriction. -/
theorem expression_exact {tree : OperatorTree α} (canonical : tree.Canonical powers)
    (limit : Nat) :
    expression limit (limit + 1) none (tree.slots powers) =
      if tree.height ≤ limit then .ok ⟨tree, tree.height, []⟩
      else .error (.nestingTooDeep limit) := by
  obtain found | ⟨deep, high⟩ := expression_slots canonical limit (limit + 1)
  · have low := (expression_low limit _ _ _ _ found).2
    rw [found, if_pos low]
  · rw [deep, if_neg (by omega)]

/-! ## How deep resolution goes -/

/-- Why roles cannot be decided is never that a decided role does not suit its element. -/
theorem decideRoles_contradiction {masks : List UInt8} {cause : Cause}
    (h : decideRoles masks = .error cause) :
    ∃ message positions narrowed, cause = .contradiction message positions narrowed ∧
      message ≠ "inconsistent classification" := by
  cases masks with
  | nil =>
    cases h
    exact ⟨_, _, _, rfl, by decide⟩
  | cons mask masks =>
    obtain ⟨message, positions, narrowed, rfl, unreadable⟩ :=
      decideRoles_eq_error (List.cons_ne_nil _ _) h
    exact ⟨message, positions, narrowed, rfl, unreadable.not_internal.2⟩

theorem resolve_of_decideRoles {elements : List (Element α)} {roles : List UInt8}
    (decided : decideRoles (elements.map (Element.mask powers)) = .ok roles) :
    ∃ slots tree, slotsFrom powers roles 0 (elements.zip roles) = .ok slots ∧
      Associates none none slots tree [] ∧ tree.walk = elements ∧
      resolve powers elements =
        if tree.height ≤ maxNesting then .ok tree else .error (.nestingTooDeep maxNesting) := by
  obtain ⟨slots, assigned, word⟩ := exists_slots_of_decideRoles decided
  obtain ⟨fits, same, -⟩ := slotsFrom_eq_ok assigned
  obtain ⟨tree, built, rfl, canonical⟩ := exists_associates word fits
  have length := length_decideRoles decided
  rw [List.length_map] at length
  refine ⟨_, tree, assigned, built, ?_, ?_⟩
  · rw [← tree.map_element_slots, same, List.map_fst_zip (Nat.le_of_eq length.symm)]
  · rw [resolve_eq, decided, ok_bind, assigned, ok_bind, expression_exact canonical]
    split <;> rfl

/-- Resolution fails where roles cannot be decided, and in the same way. Otherwise it yields the one
tree that association without a limit makes of all the elements, if operators nest no deeper than
256 levels in it, and the error that they nest too deep if they do. -/
theorem resolve_exact (powers : Powers) (elements : List (Element α)) :
    ((∃ message positions masks,
        resolve powers elements = .error (.contradiction message positions masks)) ↔
      ∃ cause, decideRoles (elements.map (Element.mask powers)) = .error cause) ∧
    (∀ cause, decideRoles (elements.map (Element.mask powers)) = .error cause →
      resolve powers elements = .error cause) ∧
    (∀ positions masks,
      resolve powers elements ≠
        .error (.contradiction "inconsistent classification" positions masks)) ∧
    (∀ remaining, resolve powers elements ≠ .error (.associationError remaining)) ∧
    ∀ roles, decideRoles (elements.map (Element.mask powers)) = .ok roles →
      ∃ slots tree, slotsFrom powers roles 0 (elements.zip roles) = .ok slots ∧
        Associates none none slots tree [] ∧
        (∀ other rest, Associates none none slots other rest → other = tree ∧ rest = []) ∧
        tree.walk = elements ∧
        resolve powers elements =
          if tree.height ≤ 256 then .ok tree else .error (.nestingTooDeep 256) := by
  have rejected (cause : Cause)
      (h : decideRoles (elements.map (Element.mask powers)) = .error cause) :
      resolve powers elements = .error cause := by
    rw [resolve_eq, h, error_bind]
  have failed {cause : Cause} (h : resolve powers elements = .error cause) :
      cause = .nestingTooDeep maxNesting ∨
      ∃ message positions narrowed, cause = .contradiction message positions narrowed ∧
        message ≠ "inconsistent classification" :=
    (resolve_eq_error h).imp_right decideRoles_contradiction
  refine ⟨⟨?_, ?_⟩, rejected, ?_, ?_, ?_⟩
  · rintro ⟨message, positions, masks, h⟩
    obtain deep | decided := resolve_eq_error h
    · cases deep
    · exact ⟨_, decided⟩
  · rintro ⟨cause, h⟩
    obtain ⟨message, positions, narrowed, rfl, -⟩ := decideRoles_contradiction h
    exact ⟨message, positions, narrowed, rejected _ h⟩
  · intro positions masks h
    obtain deep | ⟨_, _, _, same, other⟩ := failed h
    · cases deep
    · cases same
      exact other rfl
  · intro remaining h
    obtain deep | ⟨_, _, _, same, -⟩ := failed h
    · cases deep
    · cases same
  · intro roles decided
    obtain ⟨slots, tree, assigned, built, walk, resolved⟩ := resolve_of_decideRoles decided
    exact ⟨slots, tree, assigned, built, fun other rest => built.unique, walk, resolved⟩

end PseudoLang.Precedence
