import PseudoLang.Proofs.Grammar.Failure
import PseudoLang.Proofs.Grammar.Restoration

/-!
Syntax errors are final. Where an evaluation comes to a rule that fails with a message, nothing
around that rule goes on: every rule stops where a rule stops that it has come to (`stops_tries`),
and so the whole evaluation ends with the error (`evaluate_of_raises`).
-/

namespace PseudoLang.Grammar

/-! ## Steps that return or end early from everywhere -/

namespace Parse

variable {α β : Type} {a : α} {b : β} {step : Parse α} {next : α → Parse β}
  {error : List String → Error}

/-- From every context the step returns this, and leaves the context as it was. -/
def Delivers (a : α) (step : Parse α) : Prop := ∀ context, step.runFrom context = (.ok a, context)

theorem Delivers.pure (a : α) : Delivers a (pure a) := fun _ => rfl

theorem Delivers.bind (h : Delivers a step) (hn : Delivers b (next a)) :
    Delivers b (step >>= next) := by
  intro context
  rw [runFrom_bind, h]
  exact hn context

/-- From every context the step ends with an error, which depends on the rules that are open. -/
def Stops (error : List String → Error) (step : Parse α) : Prop :=
  ∀ context, (step.runFrom context).1 = .error (.error (error context.stack))

theorem Stops.bind (h : Stops error step) : Stops error (step >>= next) := by
  intro context
  have first := h context
  rw [runFrom_bind]
  generalize step.runFrom context = outcome at first
  obtain ⟨halt | a, after⟩ := outcome
  · exact congrArg Except.error (Except.error.inj first)
  · cases first

theorem Stops.after (h : Delivers a step) (hn : Stops error (next a)) :
    Stops error (step >>= next) := by
  intro context
  rw [runFrom_bind, h]
  exact hn context

theorem Stops.deeper (h : Stops error step) : Stops error (deeper step) := fun _ => h _

theorem Stops.opening (h : Stops error step) (names : List String) :
    Stops (fun stack => error (stack ++ names)) (opening names step) := fun _ => h _

theorem Returns.unique {other : α} (h : Returns a step) (ho : Returns other step) : other = a :=
  Except.ok.inj ((ho.run .initial).symm.trans (h.run .initial))

theorem Returns.not_stops (h : Returns a step) : ¬ Stops error step := by
  intro stops
  have := (h.run .initial).symm.trans (stops .initial)
  cases this

end Parse

open Parse

namespace Parser

variable {p : Parser} {room cursor next : Nat} {rule part : Rule}

theorem delivers_of_returns {result : Match}
    (h : Returns result (p.evaluateWithin room cursor rule)) :
    Delivers result (p.evaluateWithin room cursor rule) := by
  intro context
  have restored := (inherited_restores p).evaluateWithin (closed_true p.table) room rule trivial
    cursor context
  have same := h.run context
  rw [same] at restored
  exact Prod.ext same restored

/-! ## Rules that match or do not match -/

theorem Passes.split {before after : List Rule} (h : p.Passes room (before ++ after) cursor next) :
    ∃ middle, p.Passes room before cursor middle ∧ p.Passes room after middle next := by
  induction before generalizing cursor with
  | nil => exact ⟨cursor, .nil cursor, h⟩
  | cons rule before ih =>
    cases h with
    | cons matched others =>
      obtain ⟨middle, first, second⟩ := ih others
      exact ⟨middle, .cons matched first, second⟩

theorem Passes.unique {rules : List Rule} (h : p.Passes room rules cursor next) :
    ∀ {other : Nat}, p.Passes room rules cursor other → other = next := by
  induction h with
  | nil =>
    rintro other ⟨⟩
    rfl
  | cons matched _ ih =>
    intro other passes
    cases passes with
    | cons matched' others =>
      cases matched.unique matched'
      exact ih others

theorem Passes.not_misses {rules : List Rule} (h : p.Passes room rules cursor next) :
    ¬ p.Misses room rules cursor := by
  rintro ⟨before, rule, after, stop, rfl, passes, missed⟩
  obtain ⟨middle, first, second⟩ := h.split
  cases passes.unique first
  cases second with
  | cons matched _ => cases matched.unique missed

theorem Misses.returns (h : p.Misses room [rule] cursor) :
    Returns none (p.evaluateWithin room cursor rule) := by
  obtain ⟨before, other, after, stop, same, passes, missed⟩ := h
  cases before with
  | nil =>
    cases same
    cases passes
    exact missed
  | cons _ before => cases before <;> cases same

/-! ## Sequences and choices -/

variable {error : List String → Error}

theorem delivers_inTurn {rules : List Rule} (h : p.Passes room rules cursor next) :
    ∃ values, Delivers (.done next values) (inTurn (p.evaluateWithin room) rules cursor) := by
  induction h with
  | nil cursor => exact ⟨[], .pure _⟩
  | @cons rule rules cursor middle next tree matched _ ih =>
    obtain ⟨values, others⟩ := ih
    exact ⟨tree :: values, (delivers_of_returns matched).bind (others.bind (.pure _))⟩

theorem delivers_stopped {before : List Rule} (h : p.Passes room before cursor next)
    (missed : Returns none (p.evaluateWithin room next part)) (after : List Rule) :
    Delivers (.stopped next) (inTurn (p.evaluateWithin room) (before ++ part :: after) cursor) := by
  induction h with
  | nil => exact (delivers_of_returns missed).bind (.pure _)
  | cons matched _ ih => exact (delivers_of_returns matched).bind ((ih missed).bind (.pure _))

theorem stops_inTurn {before : List Rule} (h : p.Passes room before cursor next)
    (stops : Stops error (p.evaluateWithin room next part)) (after : List Rule) :
    Stops error (inTurn (p.evaluateWithin room) (before ++ part :: after) cursor) := by
  induction h with
  | nil => exact stops.bind
  | cons matched _ ih => exact (ih stops).bind.after (delivers_of_returns matched)

theorem delivers_firstOf {alternatives : List (String × Rule)}
    (h : ∀ alternative ∈ alternatives,
      Returns none (p.evaluateWithin room cursor alternative.2)) :
    Delivers none (firstOf (p.evaluateWithin room) cursor alternatives) := by
  induction alternatives with
  | nil => exact .pure _
  | cons alternative alternatives ih =>
    obtain ⟨first, rest⟩ := List.forall_mem_cons.mp h
    exact (delivers_of_returns first).bind (ih rest)

theorem stops_firstOf {before : List (String × Rule)} {tag : String}
    (h : ∀ alternative ∈ before, Returns none (p.evaluateWithin room cursor alternative.2))
    (stops : Stops error (p.evaluateWithin room cursor part)) (after : List (String × Rule)) :
    Stops error (firstOf (p.evaluateWithin room) cursor (before ++ (tag, part) :: after)) := by
  induction before with
  | nil => exact stops.bind
  | cons alternative before ih =>
    obtain ⟨first, rest⟩ := List.forall_mem_cons.mp h
    exact (ih rest).after (delivers_of_returns first)

/-! ## Loops -/

/-- A round takes these rules one after the other. -/
structure Rounding (p : Parser) (room : Nat) (rules : List Rule) (round : Round) : Prop where
  turn : ∀ {position next : Nat}, p.Passes room rules position next → position < next →
    ∃ values, Delivers (some (next, values)) (round position)
  leave : ∀ {position : Nat}, p.Misses room rules position → Delivers none (round position)
  stops : ∀ {error : List String → Error} {before after : List Rule} {part : Rule}
    {position next : Nat}, rules = before ++ part :: after →
    p.Passes room before position next → Stops error (p.evaluateWithin room next part) →
    Stops error (round position)

theorem rounding_single (p : Parser) (room : Nat) (rule : Rule) :
    p.Rounding room [rule] (single (p.evaluateWithin room) rule) where
  turn passes _ := by
    obtain _ | ⟨matched, last⟩ := passes
    cases last
    exact ⟨_, (delivers_of_returns matched).bind (.pure _)⟩
  leave misses := (delivers_of_returns misses.returns).bind (.pure _)
  stops := by
    intro error before after part position next split passes stops
    obtain ⟨rfl, rfl, -⟩ | ⟨_, -, none⟩ := List.singleton_eq_append_iff.mp split
    cases passes
    exact stops.bind

theorem rounding_together (p : Parser) (room : Nat) (rules : List Rule) :
    p.Rounding room rules (together (p.evaluateWithin room) rules) where
  turn passes _ := by
    obtain ⟨values, done⟩ := delivers_inTurn passes
    exact ⟨values, done.bind (.pure _)⟩
  leave := by
    rintro position ⟨before, part, after, stop, rfl, passes, missed⟩
    exact (delivers_stopped passes missed after).bind (.pure _)
  stops := by
    rintro error before after part position next rfl passes stops
    exact (stops_inTurn passes stops after).bind

theorem rounding_following (p : Parser) (room : Nat) (keep : Bool) (first second : Rule) :
    p.Rounding room [first, second] (following (p.evaluateWithin room) keep first second) where
  turn passes _ := by
    obtain _ | ⟨matched, _ | ⟨matched', last⟩⟩ := passes
    cases last
    exact ⟨_, (delivers_of_returns matched).bind ((delivers_of_returns matched').bind (.pure _))⟩
  leave := by
    rintro position ⟨_ | ⟨_, _ | ⟨_, before⟩⟩, part, after, stop, split, passes, missed⟩
    · cases split
      cases passes
      exact (delivers_of_returns missed).bind (.pure _)
    · cases split
      obtain _ | ⟨matched, last⟩ := passes
      cases last
      exact (delivers_of_returns matched).bind ((delivers_of_returns missed).bind (.pure _))
    · cases before <;> cases split
  stops := by
    rintro error (_ | ⟨_, _ | ⟨_, before⟩⟩) after part position next split passes stops
    · cases split
      cases passes
      exact stops.bind
    · cases split
      obtain _ | ⟨matched, last⟩ := passes
      cases last
      exact stops.bind.after (delivers_of_returns matched)
    · cases before <;> cases split

theorem Rounding.moving {rules : List Rule} {round : Round} (h : p.Rounding room rules round) :
    p.Rounding room rules (moving round) where
  turn := by
    intro position next passes forward
    obtain ⟨values, turn⟩ := h.turn passes forward
    refine ⟨values, turn.bind ?_⟩
    simp only [if_neg (Nat.ne_of_gt forward)]
    exact .pure _
  leave misses := (h.leave misses).bind (.pure _)
  stops split passes stops := (h.stops split passes stops).bind

section

variable {rules : List Rule} {round : Round} {position stop : Nat}

/-- Rounds that come back to where they start never leave it. -/
theorem Passes.stays (h : p.Passes room rules position position) (n : Nat)
    (passes : p.Passes room (Rule.rounds n rules) position stop) : stop = position := by
  induction n with
  | zero =>
    cases passes
    rfl
  | succ n ih =>
    rw [Rule.rounds_succ'] at passes
    obtain ⟨middle, once, others⟩ := passes.split
    cases once.unique h
    exact ih others

/-- A loop comes to the round after the last one that its rules match in. -/
theorem Rounding.runFrom_iterate (h : p.Rounding room rules round)
    (stuck : ∀ next, ¬ p.Passes room rules stop next) (n : Nat) :
    ∀ {rounds position : Nat} {values : List SyntaxTree},
      p.Passes room (Rule.rounds n rules) position stop → stop - position < rounds →
      ∃ fewer collected, ∀ context, (iterate round rounds position values).runFrom context =
        (iterate round (fewer + 1) stop collected).runFrom context := by
  induction n with
  | zero =>
    intro rounds position values passes enough
    cases passes
    obtain ⟨fewer, rfl⟩ := Nat.exists_eq_succ_of_ne_zero (Nat.ne_zero_of_lt enough)
    exact ⟨fewer, values, fun _ => rfl⟩
  | succ n ih =>
    intro rounds position values passes enough
    rw [Rule.rounds_succ'] at passes
    obtain ⟨middle, once, others⟩ := passes.split
    have bound := others.bounds.1
    -- A round that stays where it is would lead to `stop` at once and match there again.
    have forward : position < middle := by
      refine Nat.lt_of_le_of_ne once.bounds.1 ?_
      rintro rfl
      cases once.stays n others
      exact stuck _ once
    obtain ⟨rounds, rfl⟩ := Nat.exists_eq_succ_of_ne_zero (Nat.ne_zero_of_lt enough)
    obtain ⟨more, turn⟩ := h.turn once forward
    have fewer_left : stop - middle < rounds := by omega
    obtain ⟨fewer, collected, same⟩ := ih others fewer_left
    refine ⟨fewer, collected, fun context => ?_⟩
    rw [Parser.runFrom_iterate, turn context]
    exact same context

theorem Rounding.delivers_repetition (h : p.Rounding room rules round) {n : Nat}
    (passes : p.Passes room (Rule.rounds n rules) position stop)
    (misses : p.Misses room rules stop) (values : List SyntaxTree) :
    ∃ collected, Delivers (stop, collected) (p.repetition round position values) := by
  have bounds := passes.bounds
  have enough : stop - position < p.tokens.size - position + 1 := by omega
  obtain ⟨fewer, collected, same⟩ := h.runFrom_iterate (fun _ again => again.not_misses misses) n
    passes enough
  have last : Delivers (stop, collected.reverse) (iterate round (fewer + 1) stop collected) :=
    (h.leave misses).bind (.pure _)
  exact ⟨collected.reverse, fun context => (same context).trans (last context)⟩

theorem Rounding.stops_repetition (h : p.Rounding room rules round) {n : Nat}
    {before after : List Rule} (split : rules = before ++ part :: after)
    (passes : p.Passes room (Rule.rounds n rules ++ before) position next)
    (stops : Stops error (p.evaluateWithin room next part)) (values : List SyntaxTree) :
    Stops error (p.repetition round position values) := by
  obtain ⟨stop, rounds, last⟩ := passes.split
  have stuck (next : Nat) : ¬ p.Passes room rules stop next := by
    rintro again
    rw [split] at again
    obtain ⟨_, first, second⟩ := again.split
    cases last.unique first
    obtain _ | ⟨matched, _⟩ := second
    exact matched.not_stops stops
  have bounds := rounds.bounds
  have enough : stop - position < p.tokens.size - position + 1 := by omega
  obtain ⟨fewer, collected, same⟩ := h.runFrom_iterate stuck n rounds enough
  intro context
  rw [repetition, same]
  exact (h.stops split last stops).bind context

end

/-! ## Rules -/

section

variable {first second : Rule} {round : Round} {step : Match → Parse Match}

/-- A rule and then a loop over another one and the same again: it may stop in either of them. -/
theorem stops_first (h : p.Rounding room [second, first] round)
    (loops : ∀ next value, Stops error (p.repetition round next [value]) →
      Stops error (step (some (next, value)))) {n : Nat}
    (passes : p.Passes room (Rule.rounds n [first, second]) cursor next)
    (stops : Stops error (p.evaluateWithin room next first)) :
    Stops error (p.evaluateWithin room cursor first >>= step) := by
  cases n with
  | zero =>
    cases passes
    exact stops.bind
  | succ n =>
    rw [← Rule.rounds_pair, Rule.rounds_rotate] at passes
    obtain _ | ⟨found, turns⟩ := passes
    exact (loops _ _ (h.stops_repetition rfl turns stops _)).after (delivers_of_returns found)

theorem stops_second (h : p.Rounding room [second, first] round)
    (loops : ∀ next value, Stops error (p.repetition round next [value]) →
      Stops error (step (some (next, value)))) {n : Nat}
    (passes : p.Passes room (Rule.rounds n [first, second] ++ [first]) cursor next)
    (stops : Stops error (p.evaluateWithin room next second)) :
    Stops error (p.evaluateWithin room cursor first >>= step) := by
  rw [Rule.rounds_rotate, ← List.append_nil (Rule.rounds _ _)] at passes
  obtain _ | ⟨found, turns⟩ := passes
  exact (loops _ _ (h.stops_repetition rfl turns stops _)).after (delivers_of_returns found)

end

/-- The content of a delimited rule, of which rules have matched and others not. -/
theorem delivers_content {separator : Option Rule} {element : Rule} {matched : List Rule}
    {missed : List (List Rule)} (encloses : Rule.Encloses element separator matched missed)
    (comes : p.Comes room matched missed cursor next) (message : Option String) :
    ∃ value, Delivers (some (next, value))
      (p.content (p.evaluateWithin room) separator element message cursor) := by
  cases encloses with
  | one =>
    obtain _ | ⟨found, last⟩ := comes.passes
    cases last
    exact ⟨_, (delivers_of_returns found).bind (.pure _)⟩
  | empty =>
    have misses := comes.misses _ List.mem_cons_self
    cases comes.passes
    exact ⟨_, (delivers_of_returns misses.returns).bind (.pure _)⟩
  | @list separator n =>
    have misses := comes.misses _ List.mem_cons_self
    have passes := comes.passes
    rw [Rule.rounds_rotate] at passes
    obtain _ | ⟨found, turns⟩ := passes
    obtain ⟨values, loop⟩ := (rounding_following p room false separator element).delivers_repetition
      turns misses [_]
    exact ⟨_, (delivers_of_returns found).bind (loop.bind (.pure _))⟩

/-- Alternatives that do not match. -/
theorem returns_none_of_comes {alternatives : List (String × Rule)}
    (comes : p.Comes room [] (alternatives.map fun alternative => [alternative.2]) cursor next) :
    cursor = next ∧
      ∀ alternative ∈ alternatives, Returns none (p.evaluateWithin room cursor alternative.2) := by
  obtain ⟨passes, misses⟩ := comes
  cases passes
  exact ⟨rfl, fun alternative member => (misses _ (List.mem_map_of_mem member)).returns⟩

/-- Where a rule has come to another one that stops, it stops. -/
theorem stops_tries {matched : List Rule} {missed : List (List Rule)}
    (tries : rule.Tries matched missed part) (comes : p.Comes room matched missed cursor next)
    (stops : Stops error (p.evaluateWithin room next part)) :
    Stops error (p.evaluateRule (p.evaluateWithin room) cursor rule) := by
  have passes := comes.passes
  cases tries with
  | filter | optional | required | left | pairLeft =>
    cases passes
    exact stops.bind
  | many n =>
    have loop := (rounding_single p room part).moving
    rw [← List.append_nil (Rule.rounds _ _)] at passes
    exact (loop.stops_repetition rfl passes stops []).bind
  | @cycle before after _ n =>
    have loop := (rounding_together p room (before ++ part :: after)).moving
    exact (loop.stops_repetition rfl passes stops []).bind
  | @primary _ secondary message n =>
    have loop := (rounding_following p room true secondary part).moving
    exact stops_first loop (fun _ _ h => h.bind) passes stops
  | @secondary primary _ message n =>
    have loop := (rounding_following p room true part primary).moving
    exact stops_second loop (fun _ _ h => h.bind) passes stops
  | sequence => exact (stops_inTurn passes stops _).bind
  | one =>
    obtain _ | ⟨found, last⟩ := passes
    cases last
    exact (stops.bind.bind).after (delivers_of_returns found)
  | @element left right separator _ message n =>
    obtain _ | ⟨found, turns⟩ := passes
    have loop := rounding_following p room false separator part
    have content :
        Stops error (p.content (p.evaluateWithin room) (some separator) part message _) :=
      stops_first loop (fun _ _ h => h.bind) turns stops
    exact content.bind.after (delivers_of_returns found)
  | @separator left right _ element message n =>
    obtain _ | ⟨found, turns⟩ := passes
    have loop := rounding_following p room false part element
    have content :
        Stops error (p.content (p.evaluateWithin room) (some part) element message _) :=
      stops_second loop (fun _ _ h => h.bind) turns stops
    exact content.bind.after (delivers_of_returns found)
  | @right _ _ _ _ message _ _ encloses =>
    obtain _ | ⟨found, rest⟩ := passes
    obtain ⟨value, content⟩ := delivers_content encloses ⟨rest, comes.misses⟩ message
    exact (stops.bind.after content).after (delivers_of_returns found)
  | choice =>
    obtain ⟨rfl, none⟩ := returns_none_of_comes comes
    exact (stops_firstOf none stops _).bind
  | pairSeparator =>
    obtain _ | ⟨found, last⟩ := passes
    cases last
    exact stops.bind.after (delivers_of_returns found)
  | pairRight =>
    obtain _ | ⟨found, _ | ⟨found', last⟩⟩ := passes
    cases last
    exact (stops.bind.after (delivers_of_returns found')).after (delivers_of_returns found)
  | rightAlone =>
    have misses := comes.misses _ List.mem_cons_self
    cases passes
    exact stops.bind.after (delivers_of_returns misses.returns)

theorem stops_fails {message : String} {matched : List Rule} {missed : List (List Rule)}
    (fails : rule.Fails message matched missed) (comes : p.Comes room matched missed cursor next) :
    Stops (fun stack => p.syntaxError stack next message)
      (p.evaluateRule (p.evaluateWithin room) cursor rule) := by
  have failed {α : Type} : Stops (fun stack => p.syntaxError stack next message)
    (p.failSyntax next message : Parse α) := fun _ => rfl
  have passes := comes.passes
  cases fails with
  | split =>
    have misses := comes.misses _ List.mem_cons_self
    cases passes
    exact failed.after (delivers_of_returns misses.returns)
  | sequence =>
    have misses := comes.misses _ List.mem_cons_self
    exact failed.after (delivers_stopped passes misses.returns _)
  | element =>
    have misses := comes.misses _ List.mem_cons_self
    obtain _ | ⟨found, last⟩ := passes
    cases last
    exact (failed.after (delivers_of_returns misses.returns)).bind.after (delivers_of_returns found)
  | right encloses =>
    obtain ⟨earlier, misses⟩ := List.forall_mem_append.mp comes.misses
    have misses := misses _ List.mem_cons_self
    obtain _ | ⟨found, rest⟩ := passes
    obtain ⟨value, content⟩ := delivers_content encloses ⟨rest, earlier⟩ (some message)
    exact ((failed.after (delivers_of_returns misses.returns)).after content).after
      (delivers_of_returns found)
  | choice =>
    obtain ⟨rfl, none⟩ := returns_none_of_comes comes
    exact failed.after (delivers_firstOf none)
  | required =>
    have misses := comes.misses _ List.mem_cons_self
    cases passes
    exact failed.after (delivers_of_returns misses.returns)

theorem stops_token {kind : String} (absent : ∀ token, p.tokens[cursor]? = some token →
    token.typeName ≠ kind) (message : String) :
    Stops (fun stack => p.syntaxError stack cursor message)
      (p.evaluateRule (p.evaluateWithin room) cursor (.token kind (some message))) := by
  cases here : p.tokens[cursor]? with
  | none =>
    simp only [evaluateRule, here]
    exact fun _ => rfl
  | some token =>
    simp only [evaluateRule, here, if_neg (absent token here)]
    exact fun _ => rfl

/-- Where an evaluation comes to a rule that fails, it ends with the error. -/
theorem Raises.stops {message : String} {failing : Nat} {opened : List String}
    (h : p.Raises message failing room rule cursor opened) :
    Stops (fun stack => p.syntaxError (stack ++ opened) failing message)
      (p.evaluateWithin room cursor rule) := by
  induction h with
  | @token room kind absent =>
    have stops : Stops (fun stack => p.syntaxError stack failing message)
        (p.evaluateRule (p.evaluateWithin room) failing (.token kind (some message))) :=
      stops_token absent message
    simp only [List.append_nil]
    exact stops.deeper
  | fails fails comes =>
    simp only [List.append_nil]
    exact (stops_fails fails comes).deeper
  | tries tries comes _ ih => exact (stops_tries tries comes ih).deeper
  | @reference room cursor name chain opened rule leads _ ih =>
    have resolved : Delivers (chain, rule) (p.lift cursor (p.table.resolve name)) := by
      rw [Table.resolve_eq_ok.mpr leads]
      exact .pure _
    simp only [← List.append_assoc]
    exact ((ih.opening chain).after resolved).deeper

/-- An evaluation that comes to a rule that fails ends with the error of this rule. -/
theorem evaluate_of_raises {context : Context} {message : String} {failing : Nat}
    {opened : List String}
    (h : p.Raises message failing (maxDepth - context.depth) rule cursor opened) :
    ((p.evaluate cursor rule).runFrom context).1 =
      .error (.error (p.syntaxError (context.stack ++ opened) failing message)) := by
  rw [runFrom_evaluate]
  exact h.stops context

end Parser

end PseudoLang.Grammar
