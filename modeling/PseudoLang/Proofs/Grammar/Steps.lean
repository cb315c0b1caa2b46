import PseudoLang.Grammar.Evaluation

/-!
What can be said about a step of a parse without its context: what it returns and how it halts, from
wherever it is run.
-/

namespace PseudoLang.Grammar

namespace Parse

variable {α β : Type} {halts : Halt → Prop} {post : α → Prop}

/-- From every context the step returns what `post` allows, or halts as `halts` allows. -/
def Ensures (halts : Halt → Prop) (post : α → Prop) (step : Parse α) : Prop :=
  ∀ context, match (step.runFrom context).1 with
    | .ok a => post a
    | .error halt => halts halt

theorem runFrom_bind (step : Parse α) (next : α → Parse β) (context : Context) :
    (step >>= next).runFrom context =
      match step.runFrom context with
      | (.ok a, after) => (next a).runFrom after
      | (.error halt, after) => (.error halt, after) := by
  show (ExceptT.bindCont next (step context).1) (step context).2 = _
  unfold runFrom
  rcases step context with ⟨halt | a, after⟩ <;> rfl

theorem Ensures.pure {a : α} (h : post a) : Ensures halts post (pure a) := fun _ => h

theorem Ensures.throw {halt : Halt} (h : halts halt) :
    Ensures halts post (throw halt : Parse α) := fun _ => h

theorem Ensures.bind {step : Parse α} {next : α → Parse β} {mid : α → Prop} {post : β → Prop}
    (h : Ensures halts mid step) (hn : ∀ a, mid a → Ensures halts post (next a)) :
    Ensures halts post (step >>= next) := by
  intro context
  have first := h context
  rw [runFrom_bind]
  generalize step.runFrom context = outcome at first
  obtain ⟨halt | a, after⟩ := outcome
  · exact first
  · exact hn a first after

theorem Ensures.mono {step : Parse α} {mid : α → Prop} (h : Ensures halts mid step)
    (hm : ∀ a, mid a → post a) : Ensures halts post step := by
  intro context
  have first := h context
  generalize step.runFrom context = outcome at first
  obtain ⟨halt | a, after⟩ := outcome
  · exact first
  · exact hm a first

theorem Ensures.and {step : Parse α} {others : Halt → Prop} {more : α → Prop}
    (h : Ensures halts post step) (hm : Ensures others more step) :
    Ensures halts (fun a => post a ∧ more a) step := by
  intro context
  have first := h context
  have second := hm context
  generalize step.runFrom context = outcome at first second
  obtain ⟨halt | a, after⟩ := outcome
  · exact first
  · exact ⟨first, second⟩

theorem Ensures.deeper {step : Parse α} (h : Ensures halts post step) :
    Ensures halts post (deeper step) := fun _ => h _

theorem Ensures.opening {step : Parse α} (h : Ensures halts post step) (names : List String) :
    Ensures halts post (opening names step) := fun _ => h _

/-- A step that returns, returns what it ensures. -/
theorem Ensures.of_ok {step : Parse α} (h : Ensures halts post step) {context after : Context}
    {a : α} (hr : step.runFrom context = (.ok a, after)) : post a := by
  have := h context
  rw [hr] at this
  exact this

end Parse

namespace Parser

open Parse

variable {p : Parser} {α : Type} {halts : Halt → Prop} {post : α → Prop}

/-- Every way to halt is allowed. -/
abbrev AnyHalt : Halt → Prop := fun _ => True

theorem ensures_fail (cursor : Nat) (cause : Cause) :
    Ensures AnyHalt post (p.fail cursor cause) := fun _ => trivial

theorem ensures_failSyntax (cursor : Nat) (message : String) :
    Ensures AnyHalt post (p.failSyntax cursor message) := fun _ => trivial

theorem ensures_noMatch (cursor : Nat) (error : Option String) :
    Ensures AnyHalt (fun result : Option α => result = none) (p.noMatch cursor error) := by
  cases error with
  | none => exact .pure rfl
  | some message => exact ensures_failSyntax cursor message

theorem ensures_lift (cursor : Nat) (result : Except Cause α) :
    Ensures AnyHalt (fun a => result = .ok a) (p.lift cursor result) := by
  cases result with
  | ok a => exact .pure rfl
  | error cause => exact ensures_fail cursor cause

end Parser

end PseudoLang.Grammar
