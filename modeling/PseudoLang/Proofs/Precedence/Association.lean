import PseudoLang.Proofs.Outcome
import PseudoLang.Proofs.Precedence.Canonical

/-!
What association reads off the front of a sequence. `expression_reads` says that whatever it
returns is a canonical tree of what it has consumed; `expression_slots` that it finds every
canonical tree, unless it is nested too deep.
-/

namespace PseudoLang.Precedence

open OperatorTree

variable {α : Type} {powers : Powers}

/-- The sequence goes on with an operator between two operands that has this left power. -/
def NextLeft (rest : List (Slot α)) (left : Nat) : Prop :=
  ∃ operator right tail, rest = .binary operator left right :: tail

theorem not_nextLeft_nil (left : Nat) : ¬ NextLeft ([] : List (Slot α)) left := by
  rintro ⟨operator, right, tail, h⟩
  cases h

theorem nextLeft_cons {operator : String} {left right power : Nat} {tail : List (Slot α)} :
    NextLeft (.binary operator left right :: tail) power ↔ power = left := by
  constructor
  · rintro ⟨_, _, _, h⟩
    cases h
    rfl
  · rintro rfl
    exact ⟨operator, right, tail, rfl⟩

/-! ## What is read is canonical -/

/-- A tree has been read off the front of `slots`; the operator after it is one that no operator on
its right spine could have taken. -/
structure Reads (powers : Powers) (binding : Option Nat) (slots : List (Slot α))
    (whole : Associated α) : Prop where
  consumed : slots = whole.tree.slots powers ++ whole.rest
  canonical : whole.tree.Canonical powers
  known : whole.tree.Known powers
  binds : ∀ power ∈ whole.tree.leftSpine powers, stops binding power = false
  covers : ∀ left, NextLeft whole.rest left → ∀ power ∈ whole.tree.rightSpine powers, left ≤ power

/-- The operator after the tree is out of reach. -/
def Ends (binding : Option Nat) (whole : Associated α) : Prop :=
  ∀ left, NextLeft whole.rest left → stops binding left = true

/-- A reader whose results are canonical and go as far as the power that it is asked with. -/
def ReadsCanonical (powers : Powers) (read : Reader α) : Prop :=
  ∀ binding slots whole, (∀ slot ∈ slots, slot.Fits powers) → read binding slots = .ok whole →
    Reads powers binding slots whole ∧ Ends binding whole

theorem Powers.left_right_of_fits {operator : String} {left right : Nat}
    (h : powers.binary? operator = some (left, right)) :
    powers.left operator = left ∧ powers.right operator = right := by
  simp [Powers.left, Powers.right, h]

theorem Powers.before_of_fits {operator : String} {right : Nat}
    (h : powers.unary? operator = some right) : powers.before operator = right := by
  simp [Powers.before, h]

theorem stops_some {power left : Nat} : stops (some power) left = true ↔ left ≤ power := by
  simp [stops]

theorem not_stops_some {power left : Nat} : stops (some power) left = false ↔ power < left := by
  simp [stops]

/-- An operator before what it reads as its operand. -/
theorem Reads.unary {binding : Option Nat} {rest : List (Slot α)} {inner : Associated α}
    {operator : String} {right height : Nat} (fits : powers.unary? operator = some right)
    (reads : Reads powers (some right) rest inner) (ends : Ends (some right) inner) :
    Reads powers binding (.unary operator right :: rest)
      ⟨.unary operator inner.tree, height, inner.rest⟩ := by
  have hr : powers.before operator = right := Powers.before_of_fits fits
  refine ⟨?_, ⟨?_, reads.canonical⟩, ⟨?_, reads.known⟩, by simp [leftSpine], ?_⟩
  · simp [OperatorTree.slots, hr, reads.consumed]
  · intro power hp
    rw [hr]
    exact not_stops_some.mp (reads.binds power hp)
  · simp [fits]
  · intro left hl power hp
    rw [rightSpine, List.mem_cons, hr] at hp
    obtain rfl | hp := hp
    · exact stops_some.mp (ends left hl)
    · exact reads.covers left hl power hp

theorem Reads.term {binding : Option Nat} {rest : List (Slot α)} {value : α} {height : Nat} :
    Reads powers binding (.term value :: rest) ⟨.term value, height, rest⟩ :=
  ⟨rfl, trivial, trivial, by simp [leftSpine], by simp [rightSpine]⟩

theorem operand_reads {nested : Reader α} (hn : ReadsCanonical powers nested) {limit : Nat}
    {binding : Option Nat} {slots : List (Slot α)} {whole : Associated α}
    (fits : ∀ slot ∈ slots, slot.Fits powers) (h : operand nested limit slots = .ok whole) :
    Reads powers binding slots whole := by
  unfold operand at h
  split at h
  · cases h
    exact .term
  · rename_i operator right rest
    obtain ⟨inner, hi, h⟩ := bind_eq_ok.mp h
    obtain ⟨height, -, h⟩ := bind_eq_ok.mp h
    cases h
    obtain ⟨reads, ends⟩ := hn _ _ _ (fun slot hs => fits slot (by simp [hs])) hi
    exact reads.unary (fits (.unary operator right) (by simp)) ends
  · cases h
  · cases h

/-- One more operator with its right operand keeps what has been read canonical. -/
theorem Reads.extend {binding : Option Nat} {slots : List (Slot α)} {left right : Associated α}
    {operator : String} {leftPower rightPower height : Nat} {rest : List (Slot α)}
    (hl : Reads powers binding slots left)
    (next : left.rest = .binary operator leftPower rightPower :: rest)
    (fits : powers.binary? operator = some (leftPower, rightPower))
    (reach : stops binding leftPower = false)
    (hr : Reads powers (some rightPower) rest right) (ends : Ends (some rightPower) right) :
    Reads powers binding slots
      ⟨.binary operator left.tree right.tree, height, right.rest⟩ := by
  obtain ⟨el, er⟩ := Powers.left_right_of_fits fits
  refine ⟨?_, ⟨?_, ?_, hl.canonical, hr.canonical⟩, ⟨?_, hl.known, hr.known⟩, ?_, ?_⟩
  · rw [hl.consumed, next, hr.consumed]
    simp [OperatorTree.slots, el, er]
  · intro power hp
    rw [er]
    exact not_stops_some.mp (hr.binds power hp)
  · intro power hp
    rw [el]
    exact hl.covers leftPower ⟨operator, rightPower, rest, next⟩ power hp
  · simp [fits]
  · intro power hp
    rw [leftSpine, List.mem_cons, el] at hp
    obtain rfl | hp := hp
    · exact reach
    · exact hl.binds power hp
  · intro power hn spine hs
    rw [rightSpine, List.mem_cons, er] at hs
    obtain rfl | hs := hs
    · exact stops_some.mp (ends power hn)
    · exact hr.covers power hn spine hs

theorem climb_reads {nested : Reader α} (hn : ReadsCanonical powers nested) {limit : Nat}
    {binding : Option Nat} {slots : List (Slot α)} (fits : ∀ slot ∈ slots, slot.Fits powers) :
    ∀ (fuel : Nat) (left whole : Associated α), Reads powers binding slots left →
      left.rest.length ≤ fuel → climb nested limit binding fuel left = .ok whole →
      Reads powers binding slots whole ∧ Ends binding whole := by
  intro fuel
  induction fuel with
  | zero =>
    intro left whole hl hf h
    cases h
    have hr : left.rest = [] := List.eq_nil_of_length_eq_zero (by omega)
    constructor
    · exact hl
    · intro power hp
      rw [hr] at hp
      exact absurd hp (not_nextLeft_nil power)
  | succ fuel ih =>
    intro left whole hl hf h
    rw [climb] at h
    split at h
    · rename_i operator leftPower rightPower rest next
      split at h
      · rename_i stop
        cases h
        constructor
        · exact hl
        · intro power hp
          rw [next, nextLeft_cons] at hp
          rw [hp, stop]
      · rename_i reach
        obtain ⟨right, hright, h⟩ := bind_eq_ok.mp h
        obtain ⟨height, -, h⟩ := bind_eq_ok.mp h
        have inside : ∀ slot ∈ .binary operator leftPower rightPower :: rest, slot ∈ slots := by
          intro slot hs
          rw [hl.consumed, next]
          exact List.mem_append_right _ hs
        obtain ⟨hr, ends⟩ :=
          hn _ _ _ (fun slot hs => fits slot (inside slot (by simp [hs]))) hright
        have here : powers.binary? operator = some (leftPower, rightPower) :=
          fits (.binary operator leftPower rightPower) (inside _ (by simp))
        refine ih _ whole (hl.extend next here (by simpa using reach) hr ends) ?_ h
        have used := congrArg List.length hr.consumed
        rw [List.length_append] at used
        rw [next, List.length_cons] at hf
        show right.rest.length ≤ fuel
        omega
    · rename_i other
      cases h
      constructor
      · exact hl
      · rintro power ⟨operator, right, tail, hp⟩
        exact absurd hp (other operator power right tail)

theorem expression_reads (limit : Nat) :
    ∀ room, ReadsCanonical powers (expression (α := α) limit room) := by
  intro room
  induction room with
  | zero =>
    intro binding slots whole _ h
    cases h
  | succ room ih =>
    intro binding slots whole fits h
    obtain ⟨first, hf, h⟩ := bind_eq_ok.mp h
    exact climb_reads ih fits _ _ _ (operand_reads ih fits hf) (Nat.le_refl _) h

/-! ## What is canonical is found -/

/-- The result of reading a tree that is as high as `height` in `room`: all of it, from where
climbing goes on, or no result if there is no space for it. -/
def Found (nested : Reader α) (limit room : Nat) (binding : Option Nat) (tree : OperatorTree α)
    (rest : List (Slot α)) (result : Except Cause (Associated α)) : Prop :=
  (∃ fuel, rest.length ≤ fuel ∧
    result = climb nested limit binding fuel ⟨tree, tree.height, rest⟩) ∨
  (result = .error (.nestingTooDeep limit) ∧ (limit < tree.height ∨ room ≤ tree.height))

theorem climb_stop {nested : Reader α} {limit fuel : Nat} {binding : Option Nat}
    {left : Associated α} (h : Ends binding left) :
    climb nested limit binding fuel left = .ok left := by
  cases fuel with
  | zero => rfl
  | succ fuel =>
    rw [climb]
    split
    · rename_i operator power right rest next
      rw [if_pos (h power ⟨operator, right, rest, next⟩)]
    · rfl

theorem grow_cases (limit height : Nat) :
    grow limit height = .ok (height + 1) ∨
    grow limit height = .error (.nestingTooDeep limit) ∧ limit < height + 1 := by
  unfold grow
  split
  · exact .inr ⟨rfl, by assumption⟩
  · exact .inl rfl

/-- Where the operator that follows ends a nested tree, that tree is the whole result. -/
theorem Found.closed {nested : Reader α} {limit room : Nat} {binding : Option Nat}
    {tree : OperatorTree α} {rest : List (Slot α)} {result : Except Cause (Associated α)}
    (h : Found nested limit room binding tree rest result)
    (ends : ∀ left, NextLeft rest left → stops binding left = true) :
    result = .ok ⟨tree, tree.height, rest⟩ ∨
    (result = .error (.nestingTooDeep limit) ∧ (limit < tree.height ∨ room ≤ tree.height)) := by
  obtain ⟨fuel, -, h⟩ | h := h
  · exact .inl (h.trans (climb_stop ends))
  · exact .inr h

/-- Wherever a canonical tree may stand, it is found from its slots. -/
def FoundAnywhere (powers : Powers) (limit : Nat) (tree : OperatorTree α) : Prop :=
  ∀ room binding rest, tree.Canonical powers →
    (∀ power ∈ tree.leftSpine powers, stops binding power = false) →
    (∀ left, NextLeft rest left → ∀ power ∈ tree.rightSpine powers, left ≤ power) →
    Found (expression limit (room - 1)) limit room binding tree rest
      (expression limit room binding (tree.slots powers ++ rest))

theorem found_unary {limit : Nat} {operator : String} {operand : OperatorTree α}
    (ih : FoundAnywhere powers limit operand) :
    FoundAnywhere powers limit (.unary operator operand) := by
  intro room binding rest canonical _ covers
  cases room with
  | zero => exact .inr ⟨rfl, .inr (Nat.zero_le _)⟩
  | succ room =>
    have inner := (ih room (some (powers.before operator)) rest canonical.2
      (fun power hp => not_stops_some.mpr (canonical.1 power hp))
      (fun left hl power hp => covers left hl power (by simp [rightSpine, hp]))).closed
      (fun left hl => stops_some.mpr (covers left hl _ (by simp [rightSpine])))
    rw [expression, OperatorTree.slots, List.cons_append, Precedence.operand]
    obtain inner | ⟨inner, deep⟩ := inner
    · rw [inner]
      obtain grown | ⟨grown, deep⟩ := grow_cases limit operand.height
      · left
        refine ⟨rest.length, Nat.le_refl _, ?_⟩
        simp [ok_bind, grown, pure, Except.pure, height]
      · right
        constructor
        · simp [ok_bind, error_bind, grown]
        · exact .inl deep
    · right
      rw [inner]
      constructor
      · rfl
      · simp only [height]
        omega

theorem found_binary {limit : Nat} {operator : String} {left right : OperatorTree α}
    (ihl : FoundAnywhere powers limit left) (ihr : FoundAnywhere powers limit right) :
    FoundAnywhere powers limit (.binary operator left right) := by
  intro room binding rest canonical binds covers
  obtain ⟨tighter, closes, hl, hr⟩ := canonical
  let next : Slot α := .binary operator (powers.left operator) (powers.right operator)
  have first := ihl room binding (next :: (right.slots powers ++ rest)) hl
    (fun power hp => binds power (by simp [leftSpine, hp]))
    (fun power hp spine hs => by rw [nextLeft_cons.mp hp]; exact closes spine hs)
  rw [OperatorTree.slots, List.append_assoc, List.cons_append]
  obtain ⟨fuel, enough, first⟩ | ⟨first, deep⟩ := first
  · rw [first]
    cases room with
    | zero => exact .inr ⟨first.symm.trans rfl, .inr (Nat.zero_le _)⟩
    | succ room =>
    cases fuel with
    | zero => simp at enough
    | succ fuel =>
    have reach : stops binding (powers.left operator) = false := binds _ (by simp [leftSpine])
    have second := (ihr room (some (powers.right operator)) rest hr
      (fun power hp => not_stops_some.mpr (tighter power hp))
      (fun power hp spine hs => covers power hp spine (by simp [rightSpine, hs]))).closed
      (fun power hp => stops_some.mpr (covers power hp _ (by simp [rightSpine])))
    simp only [climb, next, reach, Nat.add_sub_cancel]
    obtain second | ⟨second, deep⟩ := second
    · rw [second]
      obtain grown | ⟨grown, deep⟩ := grow_cases limit (max left.height right.height)
      · left
        refine ⟨fuel, ?_, ?_⟩
        · simp only [List.length_cons, List.length_append] at enough
          omega
        · simp [ok_bind, grown, height]
      · right
        constructor
        · simp [ok_bind, error_bind, grown]
        · exact .inl deep
    · right
      rw [second]
      constructor
      · rfl
      · simp only [height]
        omega
  · right
    rw [first]
    constructor
    · rfl
    · simp only [height]
      omega

theorem expression_found (limit : Nat) (tree : OperatorTree α) :
    FoundAnywhere powers limit tree := by
  induction tree with
  | term value =>
    intro room binding rest _ _ _
    cases room with
    | zero => exact .inr ⟨rfl, .inr (Nat.zero_le _)⟩
    | succ room => exact .inl ⟨rest.length, Nat.le_refl _, rfl⟩
  | unary operator operand ih => exact found_unary ih
  | binary operator left right ihl ihr => exact found_binary ihl ihr

end PseudoLang.Precedence
