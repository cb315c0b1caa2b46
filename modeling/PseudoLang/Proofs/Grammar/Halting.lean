import PseudoLang.Proofs.Grammar.Depth
import PseudoLang.Proofs.Grammar.Inheritance
import PseudoLang.Proofs.Grammar.Occurrence
import PseudoLang.Proofs.Precedence.Totality

/-!
How evaluations end. A loop that goes on only where it has moved on is over after at most one round
more than there are tokens left (`loops_iterate`); a round that stays where it is comes again for
ever (`iterate_stalled`). The ways in which an evaluation can end early are those of the rules that
it reaches (`haltsAs_evaluate`).
-/

namespace PseudoLang.Grammar

/-- Terms and operators cannot be joined if they nest too deep, or if there is no way to read them.
There is at least one of them. -/
theorem Filter.precedence_eq_error {value : SyntaxTree} {cause : Cause}
    (h : precedence value = .error cause) :
    cause = .nestingTooDeep Precedence.maxNesting ∨
    ∃ message positions masks,
      cause = .contradiction message positions masks ∧ Precedence.Unreadable message := by
  unfold precedence at h
  split at h
  · cases h
  · rename_i items some
    cases resolved : Precedence.resolve .language (items.map elementOf) with
    | error other =>
      rw [resolved] at h
      cases h
      obtain deep | undecided := Precedence.resolve_eq_error resolved
      · exact .inl deep
      · have elements : (items.map elementOf).map (Precedence.Element.mask .language) ≠ [] := by
          simpa using some
        exact .inr (Precedence.decideRoles_eq_error elements undecided)
    | ok operators =>
      rw [resolved, ok_bind] at h
      dsimp only at h
      split at h
      · cases h
        exact .inl rfl
      · cases h
  · cases h

namespace Parse

variable {α β : Type} {halts : Halt → Prop} {post : α → Prop} {step : Parse α}

/-- If the step ends early, it does so as `halts` allows. -/
abbrev HaltsAs (halts : Halt → Prop) (step : Parse α) : Prop := Ensures halts (fun _ => True) step

theorem sequential_haltsAs : Sequential fun _ => HaltsAs halts where
  pure _ := Ensures.pure trivial
  bind h hn := Ensures.bind h fun a _ => hn a

end Parse

namespace Parser

open Parse

variable {p : Parser} {halts : Halt → Prop} {round : Round}

/-! ## Loops -/

/-- A loop over a round, from a context, a position and the trees collected so far in reverse: the
number of rounds that it takes and what it comes to. It goes on only from a round that has moved
on. -/
inductive Loops (round : Round) :
    Nat → Context → Nat → List SyntaxTree → Except Halt (Nat × List SyntaxTree) × Context → Prop
  | halted {context after : Context} {position : Nat} {values : List SyntaxTree} {halt : Halt} :
    (round position).runFrom context = (.error halt, after) →
    Loops round 1 context position values (.error halt, after)
  | left {context after : Context} {position : Nat} {values : List SyntaxTree} :
    (round position).runFrom context = (.ok none, after) →
    Loops round 1 context position values (.ok (position, values.reverse), after)
  | moved {context between : Context} {position next rounds : Nat} {values more : List SyntaxTree}
      {outcome : Except Halt (Nat × List SyntaxTree) × Context} :
    (round position).runFrom context = (.ok (some (next, more)), between) → position < next →
    Loops round rounds between next (more.reverse ++ values) outcome →
    Loops round (rounds + 1) context position values outcome

/-- Wherever the round matches it moves on, and not past the tokens. -/
def Progresses (p : Parser) (round : Round) : Prop :=
  ∀ position, Ensures AnyHalt
    (fun result => ∀ stop values, result = some (stop, values) →
      position < stop ∧ stop ≤ max position p.tokens.size)
    (round position)

theorem runFrom_iterate (rounds position : Nat) (values : List SyntaxTree) (context : Context) :
    (iterate round (rounds + 1) position values).runFrom context =
      match (round position).runFrom context with
      | (.ok none, after) => (.ok (position, values.reverse), after)
      | (.ok (some (next, more)), after) =>
        (iterate round rounds next (more.reverse ++ values)).runFrom after
      | (.error halt, after) => (.error halt, after) := by
  rw [iterate, runFrom_bind]
  generalize (round position).runFrom context = outcome
  obtain ⟨halt | (_ | ⟨next, more⟩), after⟩ := outcome <;> rfl

/-- A loop whose rounds move on takes at most one round more than there are tokens left, so that
allowing for more rounds changes nothing. -/
theorem loops_iterate (h : p.Progresses round) (rounds : Nat) :
    ∀ (context : Context) (position : Nat) (values : List SyntaxTree),
      p.tokens.size - position < rounds →
      ∃ taken ≤ p.tokens.size - position + 1, Loops round taken context position values
        ((iterate round rounds position values).runFrom context) := by
  induction rounds with
  | zero => exact fun _ _ _ enough => absurd enough (Nat.not_lt_zero _)
  | succ rounds ih =>
    intro context position values enough
    rw [runFrom_iterate]
    cases run : (round position).runFrom context with
    | mk outcome after =>
    cases outcome with
    | error halt => exact ⟨1, Nat.le_add_left 1 _, .halted run⟩
    | ok result =>
    cases result with
    | none => exact ⟨1, Nat.le_add_left 1 _, .left run⟩
    | some found =>
      obtain ⟨next, more⟩ := found
      obtain ⟨forward, inside⟩ := (h position).of_ok run next more rfl
      have fewer : p.tokens.size - next < rounds := by omega
      obtain ⟨taken, bound, loops⟩ := ih after next (more.reverse ++ values) fewer
      exact ⟨taken + 1, by omega, .moved run forward loops⟩

/-- A loop ends early only as its rounds do. -/
theorem Loops.haltsAs (h : ∀ position, HaltsAs halts (round position)) {rounds position : Nat}
    {context : Context} {values : List SyntaxTree}
    {outcome : Except Halt (Nat × List SyntaxTree) × Context}
    (loops : Loops round rounds context position values outcome) :
    ∀ halt, outcome.1 = .error halt → halts halt := by
  induction loops with
  | @halted context after position values halt run =>
    rintro _ ⟨⟩
    have := h position context
    rwa [run] at this
  | left => exact fun _ none => nomatch none
  | moved _ _ _ ih => exact ih

/-- A round that matches without moving on leaves the loop where it was. However many rounds are
allowed, it does not come to an end. -/
theorem iterate_stalled {context : Context} {position : Nat} {more : List SyntaxTree}
    (h : (round position).runFrom context = (.ok (some (position, more)), context))
    (rounds : Nat) : ∀ values,
      (iterate round rounds position values).runFrom context = (.error .endless, context) := by
  induction rounds with
  | zero => exact fun _ => rfl
  | succ rounds ih =>
    intro values
    rw [runFrom_iterate, h]
    exact ih (more.reverse ++ values)

/-- A repetition ends early only as its rounds do, and is endless only where they do not move
on. -/
theorem haltsAs_repetition (h : ∀ position, HaltsAs halts (round position))
    (hp : halts .endless ∨ p.Progresses round) (position : Nat) (values : List SyntaxTree) :
    HaltsAs halts (p.repetition round position values) := by
  obtain endless | progresses := hp
  · exact good_repetition sequential_haltsAs (.throw endless) h position values
  · intro context
    obtain ⟨taken, -, loops⟩ := loops_iterate progresses (p.tokens.size - position + 1) context
      position values.reverse (Nat.lt_succ_self _)
    have only := loops.haltsAs h
    unfold repetition
    split
    · trivial
    · rename_i halt ended
      exact only halt ended

/-! ## The rounds of the looping rules -/

section

variable {inner : Derivation} {evaluate : Evaluator}

/-- Wherever the rule matches, it moves on. -/
def Advances (p : Parser) (rule : Rule) : Prop :=
  ∀ room cursor, Ensures AnyHalt
    (fun result => ∀ stop tree, result = some (stop, tree) → cursor < stop)
    (p.evaluateWithin room cursor rule)

theorem advances_token (kind : String) (error : Option String) :
    p.Advances (.token kind error) := by
  intro room cursor
  apply (derives_of_evaluateWithin p room cursor (.token kind error)).mono
  intro result derived stop tree found
  obtain ⟨terminals, spans, one⟩ := derived stop tree found
  cases room with
  | zero => exact one.elim
  | succ room =>
    obtain ⟨value, rfl, -⟩ := one
    have := spans.length
    rw [List.length_singleton] at this
    omega

/-- In a separated list either the separator or the element moves on wherever it matches. -/
def ListAdvances (p : Parser) : Rule → Prop
  | .delimited _ _ (some separator) element _ => p.Advances separator ∨ p.Advances element
  | _ => True

/-- A match goes forward, not past the tokens, and further than it started if the rule advances. -/
theorem ensures_forward (p : Parser) (room cursor : Nat) (rule : Rule) :
    Ensures AnyHalt
      (fun result => ∀ stop tree, result = some (stop, tree) →
        cursor ≤ stop ∧ stop ≤ max cursor p.tokens.size ∧ (p.Advances rule → cursor < stop))
      (p.evaluateWithin room cursor rule) := by
  have derived := derives_of_evaluateWithin p room cursor rule
  by_cases advances : p.Advances rule
  · apply (derived.and (advances room cursor)).mono
    rintro result ⟨derived, moves⟩ stop tree found
    obtain ⟨terminals, spans, -⟩ := derived stop tree found
    exact ⟨spans.forward, spans.inside, fun _ => moves stop tree found⟩
  · apply derived.mono
    intro result derived stop tree found
    obtain ⟨terminals, spans, -⟩ := derived stop tree found
    exact ⟨spans.forward, spans.inside, fun h => absurd h advances⟩

theorem progresses_moving {derives : List Terminal → List SyntaxTree → Prop}
    (h : p.RoundsTo derives round) : p.Progresses (moving round) := by
  intro position
  apply (h position).bind
  rintro (_ | ⟨next, values⟩) hr
  · exact ensures_none
  · obtain ⟨terminals, spans, -⟩ := hr next values rfl
    by_cases stays : next = position
    · simp only [if_pos stays]
      exact ensures_none
    · have forward := spans.forward
      simp only [if_neg stays]
      exact ensures_some ⟨by omega, spans.inside⟩

theorem progresses_following (room : Nat) {separator element : Rule}
    (h : p.Advances separator ∨ p.Advances element) (keep : Bool) :
    p.Progresses (following (p.evaluateWithin room) keep separator element) := by
  intro position
  apply (ensures_forward p room position separator).bind
  rintro (_ | ⟨middle, first⟩) hs
  · exact ensures_none
  · apply (ensures_forward p room middle element).bind
    rintro (_ | ⟨next, value⟩) he
    · exact ensures_none
    · obtain ⟨toMiddle, insideMiddle, moves⟩ := hs middle first rfl
      obtain ⟨toNext, insideNext, moves'⟩ := he next value rfl
      have moved : position < middle ∨ middle < next := h.imp moves moves'
      exact ensures_some ⟨by omega, by omega⟩

/-- Every loop of the rules moves on with each of its rounds, a separated list if its separator or
its element does. -/
theorem progresses_roundOf (room : Nat) {rule : Rule} (h : p.ListAdvances rule)
    (loop : roundOf? (p.evaluateWithin room) rule = some round) : p.Progresses round := by
  have evaluates := derives_of_evaluateWithin p room
  unfold roundOf? at loop
  split at loop
  · cases loop
    exact progresses_moving (roundsTo_single evaluates _)
  · cases loop
    exact progresses_moving (roundsTo_together evaluates _)
  · cases loop
    exact progresses_moving (roundsTo_following evaluates true _ _)
  · cases loop
    exact progresses_following room h false
  · cases loop

end

/-! ## Ways to end early -/

/-- What may end the evaluation of rules of a class. -/
structure Permits (p : Parser) (within : Rule → Prop) (halts : Halt → Prop) : Prop where
  tooDeep : ∀ position, halts (.error ⟨.nestingTooDeep maxDepth, position⟩)
  syntaxError : ∀ stack cursor message, halts (.error (p.syntaxError stack cursor message))
  unresolved : ∀ {name : String} {cause : Cause}, within (.reference name) →
    p.table.resolve name = .error cause → ∀ position, halts (.error ⟨cause, position⟩)
  unknownFilter : ∀ {name : String} {rule : Rule}, within (.filter name rule) →
    Filter.named? name = none → ∀ position, halts (.error ⟨.unknownFilter name, position⟩)
  filtered : ∀ {value : SyntaxTree} {cause : Cause}, Filter.precedence value = .error cause →
    ∀ position, halts (.error ⟨cause, position⟩)
  endless : halts .endless ∨ ∀ rule, within rule → p.ListAdvances rule

section

variable {within : Rule → Prop} (permits : p.Permits within halts)

include permits

theorem inherited_haltsAs : p.Inherited within fun _ => HaltsAs halts where
  toSequential := sequential_haltsAs
  opening names h := h.opening names
  deeper h := h.deeper
  tooDeep cursor _ _ := permits.tooDeep (p.position cursor)
  failSyntax cursor message context := permits.syntaxError context.stack cursor message
  unresolved hw failed cursor _ := permits.unresolved hw failed (p.position cursor)
  unknownFilter hw unknown cursor _ := permits.unknownFilter hw unknown (p.position cursor)
  filtered known failed cursor _ := by
    rw [Filter.named?_eq_some known] at failed
    exact permits.filtered failed (p.position cursor)
  loop hw loop rounds position values :=
    haltsAs_repetition rounds
      (permits.endless.imp_right fun advances => progresses_roundOf _ (advances _ hw) loop)
      position values

/-- An evaluation of a rule of the class ends early only as the class permits. -/
theorem haltsAs_evaluate (closed : Closed p.table [] within) {rule : Rule} (hw : within rule)
    (cursor : Nat) : HaltsAs halts (p.evaluate cursor rule) := by
  intro context
  rw [runFrom_evaluate]
  exact (inherited_haltsAs permits).evaluateWithin closed _ rule hw cursor context

end

end Parser

end PseudoLang.Grammar
