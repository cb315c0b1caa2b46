import PseudoLang.Proofs.Grammar.Simulation

/-!
Repetitions in stages. Rounds that return whatever the context is can be put one after the other
(`Rounds`), and a repetition that begins with them comes to what it comes to after them
(`Rounds.returns_iterate`). The rounds of one parse are rounds of another one that does the same in
each of them (`rounds_of_iterate`).
-/

namespace PseudoLang.Grammar

/-! ## Steps that return -/

namespace Parse

variable {α β : Type} {a : α} {b : β} {step : Parse α}

/-- From every context the step returns this. -/
def Returns (a : α) (step : Parse α) : Prop := Ensures (fun _ => False) (· = a) step

theorem Returns.pure (a : α) : Returns a (pure a) := Ensures.pure rfl

theorem Returns.bind {next : α → Parse β} (h : Returns a step) (hn : Returns b (next a)) :
    Returns b (step >>= next) := by
  apply Ensures.bind h
  rintro _ rfl
  exact hn

theorem Returns.run (h : Returns a step) (context : Context) :
    (step.runFrom context).1 = .ok a := by
  have first := h context
  cases same : (step.runFrom context).1 with
  | error halt =>
    rw [same] at first
    exact first.elim
  | ok other =>
    rw [same] at first
    exact congrArg _ first

/-- What a step returns from a context, another step that does the same returns from every one. -/
theorem Simulates.returns {t : Tolerance} {rel : α → β → Prop} {other : Parse β} {context : Context}
    (h : Simulates t rel step other) (ha : (step.runFrom context).1 = .ok a)
    (only : ∀ b', rel a b' → b' = b) : Returns b other := by
  intro context'
  have same := h context context'
  rw [ha] at same
  cases ran : (other.runFrom context').1 with
  | error halt =>
    rw [ran] at same
    exact same.elim
  | ok b' =>
    rw [ran] at same
    exact only b' same

end Parse

namespace Parser

open Parse

variable {p : Parser} {evaluate : Evaluator} {cursor : Nat}

/-- What a rule comes to from one context, it comes to from every one. -/
theorem returns_evaluateWithin {room : Nat} {rule : Rule} {result : Match} {context : Context}
    (ran : ((p.evaluateWithin room cursor rule).runFrom context).1 = .ok result) :
    Returns result (p.evaluateWithin room cursor rule) := by
  have aligned : p.Aligned .any [] (fun i j => j = 0 + i) p :=
    aligned_after rfl (fun i => by rw [Nat.zero_add]) (Nat.le_refl _)
  have simulates := simulates_evaluateWithin aligned (closed_true p.table) room room
    (Nat.le_refl _) rule trivial cursor cursor (Nat.zero_add _).symm
  refine simulates.returns ran ?_
  rintro _ (_ | same)
  · rfl
  · rw [same, Nat.zero_add]

/-! ## Rules that do not match, and a token that does -/

theorem returns_none_token {kind : String}
    (h : ∀ token, p.tokens[cursor]? = some token → token.typeName ≠ kind) (room : Nat) :
    Returns none (p.evaluateWithin (room + 1) cursor (.token kind none)) := by
  apply Ensures.deeper
  cases here : p.tokens[cursor]? with
  | none => exact .pure rfl
  | some token =>
    simp only [if_neg (h token here)]
    exact .pure rfl

theorem returns_token {token : Token} {kind : String} (here : p.tokens[cursor]? = some token)
    (named : token.typeName = kind) (error : Option String) (room : Nat) :
    Returns (some (cursor + 1, .token kind token.value))
      (p.evaluateWithin (room + 1) cursor (.token kind error)) := by
  apply Ensures.deeper
  simp only [here, if_pos named]
  exact .pure rfl

theorem returns_none_sequence {room : Nat} {rule : Rule}
    (h : Returns none (p.evaluateWithin room cursor rule)) (rules : List Rule) :
    Returns none (p.evaluateWithin (room + 1) cursor (.sequence (rule :: rules) none)) := by
  apply Ensures.deeper
  have stopped : Returns (.stopped cursor)
      (inTurn (p.evaluateWithin room) (rule :: rules) cursor) := h.bind (.pure _)
  exact stopped.bind (.pure _)

theorem returns_reference {result : Match} {room : Nat} {name : String} {chain : List String}
    {rule : Rule} (resolved : p.table.resolve name = .ok (chain, rule))
    (h : Returns result (p.evaluateWithin room cursor rule)) :
    Returns result (p.evaluateWithin (room + 1) cursor (.reference name)) := by
  apply Ensures.deeper
  simp only [evaluateRule, resolved, lift]
  exact (Returns.pure _).bind (h.opening chain)

/-- A choice between rules of which only one matches. -/
theorem returns_choice {room next : Nat} {value : SyntaxTree} {tag : String} {rule : Rule}
    {before : List (String × Rule)}
    (hb : ∀ alternative ∈ before, Returns none (p.evaluateWithin room cursor alternative.2))
    (h : Returns (some (next, value)) (p.evaluateWithin room cursor rule))
    (after : List (String × Rule)) (error : Option String) :
    Returns (some (next, .tagged tag value))
      (p.evaluateWithin (room + 1) cursor (.choice (before ++ (tag, rule) :: after) error)) := by
  have chosen : Returns (some (next, .tagged tag value))
      (firstOf (p.evaluateWithin room) cursor (before ++ (tag, rule) :: after)) := by
    induction before with
    | nil => exact h.bind (.pure _)
    | cons alternative before ih =>
      obtain ⟨first, rest⟩ := List.forall_mem_cons.mp hb
      exact first.bind (ih rest)
  apply Ensures.deeper
  exact chosen.bind (.pure _)

/-! ## Rounds -/

/-- Rounds of a repetition that come from one cursor to another, each of which moves on. -/
inductive Rounds (round : Round) : Nat → List SyntaxTree → Nat → Prop
  | nil (position : Nat) : Rounds round position [] position
  | cons {position next stop : Nat} {values more : List SyntaxTree} :
    position < next → Returns (some (next, values)) (round position) →
    Rounds round next more stop → Rounds round position (values ++ more) stop

variable {round round' : Round} {position middle stop : Nat} {trees more : List SyntaxTree}

theorem Rounds.one {next : Nat} {values : List SyntaxTree} (forward : position < next)
    (h : Returns (some (next, values)) (round position)) : Rounds round position values next := by
  have rounds := Rounds.cons forward h (.nil next)
  rwa [List.append_nil] at rounds

theorem Rounds.append (h : Rounds round position trees middle)
    (hm : Rounds round middle more stop) : Rounds round position (trees ++ more) stop := by
  induction h with
  | nil => exact hm
  | cons forward returns _ ih =>
    rw [List.append_assoc]
    exact .cons forward returns (ih hm)

theorem Rounds.le (h : Rounds round position trees stop) : position ≤ stop := by
  induction h with
  | nil => exact Nat.le_refl _
  | cons forward _ _ ih => omega

/-- A repetition comes to what it comes to after some rounds, if it has that many. -/
theorem Rounds.returns_iterate (h : Rounds round position trees stop)
    {result : Nat × List SyntaxTree} (least : Nat) :
    ∀ rounds, stop - position + least ≤ rounds → ∀ values,
      (∀ rounds, least ≤ rounds →
        Returns result (iterate round rounds stop (trees.reverse ++ values))) →
      Returns result (iterate round rounds position values) := by
  induction h with
  | nil =>
    intro rounds enough values rest
    exact rest rounds (by omega)
  | @cons position next stop trees more forward returns others ih =>
    intro rounds enough values rest
    have := others.le
    obtain ⟨rounds, rfl⟩ : ∃ fewer, rounds = fewer + 1 := ⟨rounds - 1, by omega⟩
    refine returns.bind (ih rounds (by omega) (trees.reverse ++ values) fun rounds enough => ?_)
    have last := rest rounds enough
    rwa [List.reverse_append, List.append_assoc] at last

/-- If there is a match, it moves on, and the round comes to the same. -/
def Repeats (round : Round) (position : Nat) (result : Option (Nat × List SyntaxTree)) : Prop :=
  ∀ next values, result = some (next, values) →
    position < next ∧ Returns (some (next, values)) (round position)

/-- The rounds of a repetition, if another parse does the same in each of them. -/
theorem rounds_of_iterate
    (h : ∀ position, Ensures AnyHalt (Repeats round' position) (round position)) (rounds : Nat) :
    ∀ position values, Ensures AnyHalt
      (fun result => ∃ trees, result.2 = values.reverse ++ trees ∧
        Rounds round' position trees result.1) (iterate round rounds position values) := by
  induction rounds with
  | zero => exact fun _ _ => .throw trivial
  | succ rounds ih =>
    intro position values
    apply (h position).bind
    rintro (_ | ⟨next, more⟩) hr
    · exact .pure ⟨[], by simp, .nil position⟩
    · obtain ⟨forward, returns⟩ := hr next more rfl
      apply (ih next (more.reverse ++ values)).mono
      rintro ⟨stop, all⟩ ⟨trees, same, others⟩
      refine ⟨more ++ trees, ?_, .cons forward returns others⟩
      rw [same]
      simp

end Parser

end PseudoLang.Grammar
