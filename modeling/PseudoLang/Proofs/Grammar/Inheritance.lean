import PseudoLang.Proofs.Grammar.Classes
import PseudoLang.Proofs.Grammar.Steps

/-!
Properties of steps that an evaluation inherits from the steps it is made of. Such a property holds
of two steps one after the other if it holds of both; then it holds of the evaluation of a rule if
it holds of those of the rules inside (`Inherited.evaluateRule`), and so of every evaluation
(`Inherited.evaluateWithin`).
-/

namespace PseudoLang.Grammar

open Parse

/-- A property of steps that two of them one after the other have if both of them have it. -/
structure Parse.Sequential (good : (α : Type) → Parse α → Prop) : Prop where
  pure : ∀ {α : Type} (a : α), good α (pure a)
  bind : ∀ {α β : Type} {step : Parse α} {next : α → Parse β}, good α step →
    (∀ a, good β (next a)) → good β (step >>= next)

namespace Parser

/-- The round that the loop of a looping rule takes again and again. -/
def roundOf? (evaluate : Evaluator) : Rule → Option Round
  | .many rule => some (moving (single evaluate rule))
  | .cycle rules => some (moving (together evaluate rules))
  | .split primary secondary _ => some (moving (following evaluate true secondary primary))
  | .delimited _ _ (some separator) element _ => some (following evaluate false separator element)
  | _ => none

/-- A property of steps that holds of every evaluation of a rule of a class, if it holds of the
loops whose rounds have it. It holds of whatever may end such an evaluation early. -/
structure Inherited (p : Parser) (within : Rule → Prop) (good : (α : Type) → Parse α → Prop) :
    Prop extends Sequential good where
  opening : ∀ {α : Type} {step : Parse α} (names : List String), good α step →
    good α (opening names step)
  deeper : ∀ {α : Type} {step : Parse α}, good α step → good α (deeper step)
  tooDeep : ∀ cursor rule, good Match (p.evaluateWithin 0 cursor rule)
  failSyntax : ∀ {α : Type} cursor message, good α (p.failSyntax cursor message)
  unresolved : ∀ {name : String} {cause : Cause}, within (.reference name) →
    p.table.resolve name = .error cause → ∀ cursor, good Match (p.fail cursor cause)
  unknownFilter : ∀ {name : String} {rule : Rule}, within (.filter name rule) →
    Filter.named? name = none → ∀ cursor, good Match (p.fail cursor (.unknownFilter name))
  filtered : ∀ {name : String} {filter : Filter} {value : SyntaxTree} {cause : Cause},
    Filter.named? name = some filter → filter value = .error cause →
    ∀ cursor, good Match (p.fail cursor cause)
  loop : ∀ {rule : Rule} {room : Nat} {round : Round}, within rule →
    roundOf? (p.evaluateWithin room) rule = some round →
    (∀ position, good (Option (Nat × List SyntaxTree)) (round position)) →
    ∀ position values, good (Nat × List SyntaxTree) (p.repetition round position values)

variable {p : Parser} {good : (α : Type) → Parse α → Prop} {evaluate : Evaluator} {round : Round}

/-! ## Sequences, choices and rounds -/

section

variable (h : Sequential good)

include h

theorem good_inTurn {rules : List Rule}
    (he : ∀ rule ∈ rules, ∀ cursor, good Match (evaluate cursor rule)) :
    ∀ position, good Progress (inTurn evaluate rules position) := by
  induction rules with
  | nil => exact fun _ => h.pure _
  | cons rule rules ih =>
    intro position
    obtain ⟨first, rest⟩ := List.forall_mem_cons.mp he
    apply h.bind (first position)
    rintro (_ | ⟨next, value⟩)
    · exact h.pure _
    · apply h.bind (ih rest next)
      rintro (stopped | ⟨stop, values⟩) <;> exact h.pure _

theorem good_firstOf {alternatives : List (String × Rule)}
    (he : ∀ alternative ∈ alternatives, ∀ cursor, good Match (evaluate cursor alternative.2))
    (cursor : Nat) : good Match (firstOf evaluate cursor alternatives) := by
  induction alternatives with
  | nil => exact h.pure _
  | cons alternative alternatives ih =>
    obtain ⟨tag, rule⟩ := alternative
    obtain ⟨first, rest⟩ := List.forall_mem_cons.mp he
    apply h.bind (first cursor)
    rintro (_ | ⟨next, value⟩)
    · exact ih rest
    · exact h.pure _

theorem good_single {rule : Rule} (he : ∀ cursor, good Match (evaluate cursor rule))
    (position : Nat) : good _ (single evaluate rule position) := by
  apply h.bind (he position)
  rintro (_ | ⟨next, value⟩) <;> exact h.pure _

theorem good_together {rules : List Rule}
    (he : ∀ rule ∈ rules, ∀ cursor, good Match (evaluate cursor rule)) (position : Nat) :
    good _ (together evaluate rules position) := by
  apply h.bind (good_inTurn h he position)
  rintro (stopped | ⟨stop, values⟩) <;> exact h.pure _

theorem good_following (keep : Bool) {before rule : Rule}
    (hb : ∀ cursor, good Match (evaluate cursor before))
    (hr : ∀ cursor, good Match (evaluate cursor rule)) (position : Nat) :
    good _ (following evaluate keep before rule position) := by
  apply h.bind (hb position)
  rintro (_ | ⟨middle, first⟩)
  · exact h.pure _
  · apply h.bind (hr middle)
    rintro (_ | ⟨next, value⟩) <;> exact h.pure _

theorem good_moving (hr : ∀ position, good _ (round position)) (position : Nat) :
    good _ (moving round position) := by
  apply h.bind (hr position)
  rintro (_ | ⟨next, values⟩) <;> exact h.pure _

/-- A loop has the property if its rounds have it, and so does going on for ever. -/
theorem good_repetition (endless : good (Nat × List SyntaxTree) (throw .endless))
    (hr : ∀ position, good _ (round position)) (position : Nat) (values : List SyntaxTree) :
    good _ (p.repetition round position values) := by
  unfold repetition
  generalize p.tokens.size - position + 1 = rounds
  generalize values.reverse = values
  induction rounds generalizing position values with
  | zero => exact endless
  | succ rounds ih =>
    apply h.bind (hr position)
    rintro (_ | ⟨next, more⟩)
    · exact h.pure _
    · exact ih next _

end

/-! ## Rules -/

/-- What comes of a name or a filter, after the failures that they may end with. -/
theorem good_lift {α : Type} {cursor : Nat} {result : Except Cause α} {next : α → Parse Match}
    (hr : ∀ cause, result = .error cause → good Match (p.fail cursor cause))
    (hn : ∀ a, result = .ok a → good Match (next a)) :
    good Match (p.lift cursor result >>= next) := by
  cases result with
  | error cause => exact hr cause rfl
  | ok a => exact hn a rfl

namespace Inherited

variable {within : Rule → Prop} {room : Nat} (h : p.Inherited within good)

include h

theorem noMatch {α : Type} (cursor : Nat) (error : Option String) :
    good (Option α) (p.noMatch cursor error) := by
  cases error with
  | none => exact h.pure _
  | some message => exact h.failSyntax cursor message

section

variable (he : ∀ rule, within rule → ∀ cursor, good Match (p.evaluateWithin room cursor rule))

include he

theorem content {left right element : Rule} {separator : Option Rule} {error : Option String}
    (hw : within (.delimited left right separator element error))
    (hs : ∀ rule ∈ separator, within rule) (hl : within element) (position : Nat) :
    good Match (p.content (p.evaluateWithin room) separator element error position) := by
  cases separator with
  | none =>
    apply h.bind (he element hl position)
    rintro (_ | result)
    · exact h.noMatch position error
    · exact h.pure _
  | some separator =>
    refine h.bind (he element hl position) ?_
    rintro (_ | ⟨next, value⟩)
    · exact h.pure _
    · have rounds := good_following h.toSequential false (he separator (hs separator rfl))
        (he element hl)
      exact h.bind (h.loop hw rfl rounds next [value]) fun _ => h.pure _

/-- A rule of the class has the property, if the rules inside it have. -/
theorem evaluateRule (closed : Closed p.table [] within) {rule : Rule} (hw : within rule)
    (cursor : Nat) : good Match (p.evaluateRule (p.evaluateWithin room) cursor rule) := by
  have parts : ∀ part ∈ rule.parts, ∀ cursor, good Match (p.evaluateWithin room cursor part) :=
    fun part inside => he part (closed.part hw inside)
  cases rule with
  | reference name =>
    apply good_lift (fun cause failed => h.unresolved hw failed cursor)
    rintro ⟨chain, inner⟩ resolved
    exact h.opening chain (he inner (closed.reference hw resolved) cursor)
  | token kind error =>
    simp only [Parser.evaluateRule]
    split
    · split
      · exact h.pure _
      · exact h.noMatch cursor error
    · exact h.noMatch cursor error
  | filter name rule =>
    apply h.bind (parts rule List.mem_cons_self cursor)
    rintro (_ | ⟨next, value⟩)
    · exact h.pure _
    · dsimp only
      split
      · rename_i unknown
        exact h.unknownFilter hw unknown cursor
      · rename_i filter known
        exact good_lift (fun cause failed => h.filtered known failed cursor) fun _ _ => h.pure _
  | optional rule =>
    apply h.bind (parts rule List.mem_cons_self cursor)
    rintro (_ | ⟨next, value⟩) <;> exact h.pure _
  | many rule =>
    have rounds := good_moving h.toSequential
      (good_single h.toSequential (parts rule List.mem_cons_self))
    exact h.bind (h.loop hw rfl rounds cursor []) fun _ => h.pure _
  | cycle rules =>
    have rounds := good_moving h.toSequential (good_together h.toSequential parts)
    exact h.bind (h.loop hw rfl rounds cursor []) fun _ => h.pure _
  | split primary secondary error =>
    have hp := parts primary (by simp [Rule.parts])
    have hs := parts secondary (by simp [Rule.parts])
    have rounds := good_moving h.toSequential (good_following h.toSequential true hs hp)
    apply h.bind (hp cursor)
    rintro (_ | ⟨next, first⟩)
    · exact h.noMatch cursor error
    · exact h.bind (h.loop hw rfl rounds next [first]) fun _ => h.pure _
  | sequence rules error =>
    apply h.bind (good_inTurn h.toSequential parts cursor)
    rintro (stop | ⟨stop, values⟩)
    · exact h.noMatch stop error
    · exact h.pure _
  | delimited left right separator element error =>
    obtain ⟨-, -, hi, hs⟩ : within left ∧ within right ∧ within element ∧
        ∀ rule ∈ separator, within rule := by
      have each (part : Rule) (inside : part ∈ _) : within part := closed.part hw inside
      simpa [Rule.parts] using each
    apply h.bind (parts left (by simp [Rule.parts]) cursor)
    rintro (_ | ⟨opened, _⟩)
    · exact h.pure _
    · apply h.bind (h.content he hw hs hi opened)
      rintro (_ | ⟨position, value⟩)
      · exact h.pure _
      · apply h.bind (parts right (by simp [Rule.parts]) position)
        rintro (_ | ⟨stop, _⟩)
        · exact h.noMatch position error
        · exact h.pure _
  | choice alternatives error =>
    have all : ∀ alternative ∈ alternatives, ∀ cursor,
        good Match (p.evaluateWithin room cursor alternative.2) :=
      fun alternative member => parts _ (List.mem_map_of_mem member)
    apply h.bind (good_firstOf h.toSequential all cursor)
    rintro (_ | result)
    · exact h.noMatch cursor error
    · exact h.pure _
  | required rule error =>
    apply h.bind (parts rule List.mem_cons_self cursor)
    rintro (_ | result)
    · exact h.failSyntax cursor error
    · exact h.pure _
  | pair left separator right =>
    have hr := parts right (by simp [Rule.parts])
    apply h.bind (parts left (by simp [Rule.parts]) cursor)
    rintro (_ | ⟨position, first⟩)
    · apply h.bind (hr cursor)
      rintro (_ | ⟨stop, value⟩) <;> exact h.pure _
    · apply h.bind (parts separator (by simp [Rule.parts]) position)
      rintro (_ | ⟨middle, _⟩)
      · exact h.pure _
      · apply h.bind (hr middle)
        rintro (_ | ⟨stop, value⟩) <;> exact h.pure _

end

theorem evaluateWithin (closed : Closed p.table [] within) (room : Nat) :
    ∀ rule, within rule → ∀ cursor, good Match (p.evaluateWithin room cursor rule) := by
  induction room with
  | zero => exact fun rule _ cursor => h.tooDeep cursor rule
  | succ room ih => exact fun rule hw cursor => h.deeper (h.evaluateRule ih closed hw cursor)

end Inherited

/-- The room for a rule is what the context leaves. -/
theorem runFrom_evaluate (cursor : Nat) (rule : Rule) (context : Context) :
    (p.evaluate cursor rule).runFrom context =
      (p.evaluateWithin (maxDepth - context.depth) cursor rule).runFrom context := rfl

end Parser

end PseudoLang.Grammar
