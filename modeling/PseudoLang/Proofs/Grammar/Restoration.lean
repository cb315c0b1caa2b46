import PseudoLang.Proofs.Grammar.Halting

/-!
What an evaluation leaves of its context. The open rules are those from before, however it ends, and
so is the depth, except that an evaluation that did not fit leaves it one higher. Evaluations that
share a context can be made one after the other: until one of them does not fit, each of them comes
to what it would come to first (`context_restored`).
-/

namespace PseudoLang.Grammar

/-- The end of a parse at the depth of nesting of rule evaluations. That of a nesting of operators
has a limit of its own. -/
def Halt.isTooDeep : Halt → Bool
  | .error ⟨.nestingTooDeep limit, _⟩ => limit == maxDepth
  | _ => false

/-- An evaluation did not fit into the depth. -/
def tooDeep {α : Type} : Except Halt α → Bool
  | .ok _ => false
  | .error halt => halt.isTooDeep

theorem tooDeep_iff {α : Type} {outcome : Except Halt α} :
    tooDeep outcome = true ↔
      ∃ position, outcome = .error (.error ⟨.nestingTooDeep maxDepth, position⟩) := by
  constructor
  · intro deep
    cases outcome with
    | ok a => cases deep
    | error halt =>
      change halt.isTooDeep = true at deep
      unfold Halt.isTooDeep at deep
      split at deep
      · rename_i limit position
        rw [beq_iff_eq.mp deep]
        exact ⟨position, rfl⟩
      · cases deep
  · rintro ⟨position, rfl⟩
    rfl

/-- The context that is left behind. -/
def Context.after {α : Type} (context : Context) (outcome : Except Halt α) : Context :=
  { context with depth := context.depth + (tooDeep outcome).toNat }

namespace Parse

variable {α β : Type} {step : Parse α}

/-- Whatever comes of the step, it leaves the context as it was, or one deeper if it did not fit. -/
def Restores (step : Parse α) : Prop :=
  ∀ context, (step.runFrom context).2 = context.after (step.runFrom context).1

theorem sequential_restores : Sequential fun _ => Restores where
  pure _ _ := rfl
  bind h hn := by
    intro context
    have first := h context
    rw [runFrom_bind]
    generalize Parse.runFrom _ context = outcome at first
    obtain ⟨halt | a, after⟩ := outcome
    · exact first
    · obtain rfl : after = context := first
      exact hn a after

theorem runFrom_opening (names : List String) (step : Parse α) (context : Context) :
    (opening names step).runFrom context =
      let (outcome, after) := step.runFrom { context with stack := context.stack ++ names }
      (outcome, { after with stack := after.stack.take context.stack.length }) := rfl

theorem runFrom_deeper (step : Parse α) (context : Context) :
    (deeper step).runFrom context =
      let (outcome, after) := step.runFrom { context with depth := context.depth + 1 }
      (outcome, { after with depth := after.depth - 1 }) := rfl

theorem Restores.opening (h : Restores step) (names : List String) :
    Restores (opening names step) := by
  intro context
  rw [runFrom_opening]
  dsimp only
  rw [h, Context.after, Context.after, List.take_left]

theorem Restores.deeper (h : Restores step) : Restores (deeper step) := by
  intro context
  rw [runFrom_deeper]
  dsimp only
  rw [h, Context.after, Context.after, Nat.add_right_comm, Nat.add_sub_cancel]

end Parse

namespace Parser

open Parse

variable {p : Parser}

theorem restores_fail {α : Type} {cause : Cause} (h : cause ≠ .nestingTooDeep maxDepth)
    (cursor : Nat) : Restores (p.fail cursor cause : Parse α) := by
  intro context
  have fits : tooDeep ((p.fail cursor cause : Parse α).runFrom context).1 = false := by
    rw [Bool.eq_false_iff, ne_eq, tooDeep_iff]
    rintro ⟨position, same⟩
    cases same
    exact h rfl
  rw [Context.after, fits]
  rfl

theorem inherited_restores (p : Parser) : p.Inherited (fun _ => True) fun _ => Restores where
  toSequential := sequential_restores
  opening names h := h.opening names
  deeper h := h.deeper
  tooDeep _ _ _ := rfl
  failSyntax _ _ _ := rfl
  unresolved _ failed := by
    obtain rfl | ⟨missing, rfl⟩ := Table.follow_error_cases failed <;> exact restores_fail nofun
  unknownFilter _ _ := restores_fail nofun
  filtered known failed := by
    rw [Filter.named?_eq_some known] at failed
    obtain rfl | ⟨message, positions, masks, rfl, -⟩ := Filter.precedence_eq_error failed
    · exact restores_fail (by decide)
    · exact restores_fail nofun
  loop _ _ := good_repetition sequential_restores fun _ => rfl

theorem runFrom_evaluate_snd (p : Parser) (cursor : Nat) (rule : Rule) (context : Context) :
    ((p.evaluate cursor rule).runFrom context).2 =
      context.after ((p.evaluate cursor rule).runFrom context).1 := by
  rw [runFrom_evaluate]
  exact (inherited_restores p).evaluateWithin (closed_true p.table) _ rule trivial cursor context

end Parser

/-! ## Evaluations that share a context -/

/-- An evaluation of a rule from a cursor that a parser is asked for. A rule of the table is asked
for by a reference to it. -/
structure Request where
  parser : Parser
  cursor : Nat
  rule : Rule

def Request.evaluate (request : Request) : Parse Match :=
  request.parser.evaluate request.cursor request.rule

/-- Makes one evaluation after the other, each in the context that the one before has left: what
comes of them, and the context after the last one. -/
def Context.serve : List Request → Context → List (Except Halt Match) × Context
  | [], context => ([], context)
  | request :: rest, context =>
    let (outcome, after) := request.evaluate.runFrom context
    let (outcomes, last) := serve rest after
    (outcome :: outcomes, last)

theorem Request.evaluate_snd (request : Request) (context : Context) :
    (request.evaluate.runFrom context).2 =
      context.after (request.evaluate.runFrom context).1 :=
  request.parser.runFrom_evaluate_snd request.cursor request.rule context

theorem Context.serve_cons (request : Request) (rest : List Request) (context : Context) :
    serve (request :: rest) context =
      ((request.evaluate.runFrom context).1 ::
          (serve rest (context.after (request.evaluate.runFrom context).1)).1,
        (serve rest (context.after (request.evaluate.runFrom context).1)).2) := by
  rw [← request.evaluate_snd]
  rfl

/-- The depth tells how many evaluations did not fit. -/
theorem Context.serve_snd (requests : List Request) : ∀ context : Context,
    (serve requests context).2 =
      { context with depth := context.depth + (serve requests context).1.countP tooDeep } := by
  induction requests with
  | nil => exact fun _ => rfl
  | cons request rest ih =>
    intro context
    rw [serve_cons]
    dsimp only
    rw [ih, List.countP_cons, Context.after]
    cases tooDeep (request.evaluate.runFrom context).1 <;> grind

theorem Context.serve_append (requests more : List Request) : ∀ context : Context,
    (serve (requests ++ more) context).1 =
      (serve requests context).1 ++ (serve more (serve requests context).2).1 := by
  induction requests with
  | nil => exact fun _ => rfl
  | cons request rest ih =>
    intro context
    rw [List.cons_append, serve_cons, serve_cons, ih]
    rfl

theorem Context.length_serve (requests : List Request) : ∀ context : Context,
    (serve requests context).1.length = requests.length := by
  induction requests with
  | nil => exact fun _ => rfl
  | cons request rest ih =>
    intro context
    rw [serve_cons, List.length_cons, ih, List.length_cons]

/-- After evaluations that all fit, the next one is made in the context from the start. -/
theorem Context.serve_next (earlier : List Request) (request : Request) (later : List Request)
    {context : Context} (fit : ∀ outcome ∈ (serve earlier context).1, tooDeep outcome = false) :
    (serve (earlier ++ request :: later) context).1[earlier.length]? =
      some (request.evaluate.runFrom context).1 := by
  have none_deep : (serve earlier context).1.countP tooDeep = 0 :=
    List.countP_eq_zero.mpr fun outcome member => Bool.eq_false_iff.mp (fit outcome member)
  have unchanged : (serve earlier context).2 = context := by
    rw [serve_snd, none_deep]
    rfl
  rw [serve_append, unchanged, serve_cons, ← length_serve earlier context,
    List.getElem?_append_right (Nat.le_refl _), Nat.sub_self, List.getElem?_cons_zero]

/-- An evaluation leaves the open rules as they were, whatever comes of it, and the depth too unless
the evaluation did not fit, which leaves it one higher. So evaluations that share a context leave
the open rules alone and raise the depth by the number of those that did not fit; up to the first of
these, each of them comes to what it would come to in the context that was there at the start. -/
theorem context_restored :
    (∀ (p : Parser) (cursor : Nat) (rule : Rule) (context : Context),
      ((p.evaluate cursor rule).runFrom context).2.stack = context.stack ∧
      ((p.evaluate cursor rule).runFrom context).2.depth =
        if tooDeep ((p.evaluate cursor rule).runFrom context).1 then context.depth + 1
        else context.depth) ∧
    (∀ (p : Parser) (cursor : Nat) (name : String) (context : Context),
      ((p.parseRule cursor name).runFrom context).2.stack = context.stack ∧
      ((p.parseRule cursor name).runFrom context).2.depth =
        if tooDeep ((p.parseRule cursor name).runFrom context).1 then context.depth + 1
        else context.depth) ∧
    ∀ (requests : List Request) (context : Context),
      (context.serve requests).2.stack = context.stack ∧
      (context.serve requests).2.depth =
        context.depth + (context.serve requests).1.countP tooDeep ∧
      (context.serve requests).1.length = requests.length ∧
      ∀ earlier request later, requests = earlier ++ request :: later →
        (∀ outcome ∈ (context.serve requests).1.take earlier.length, tooDeep outcome = false) →
        (context.serve requests).1[earlier.length]? =
          some (request.evaluate.runFrom context).1 := by
  have each (p : Parser) (cursor : Nat) (rule : Rule) (context : Context) :
      ((p.evaluate cursor rule).runFrom context).2.stack = context.stack ∧
      ((p.evaluate cursor rule).runFrom context).2.depth =
        if tooDeep ((p.evaluate cursor rule).runFrom context).1 then context.depth + 1
        else context.depth := by
    rw [p.runFrom_evaluate_snd]
    refine ⟨rfl, ?_⟩
    cases deep : tooDeep ((p.evaluate cursor rule).runFrom context).1 <;> simp [Context.after, deep]
  refine ⟨each, fun p cursor name => each p cursor (.reference name), ?_⟩
  intro requests context
  rw [Context.serve_snd]
  refine ⟨rfl, rfl, Context.length_serve requests context, ?_⟩
  rintro earlier request later rfl fit
  apply Context.serve_next
  intro outcome member
  apply fit
  rw [Context.serve_append, ← Context.length_serve earlier context, List.take_left]
  exact member

/-- A parser of names inside names without end. -/
def nestParser : Parser where
  tokens := #[⟨.name, "a", ⟨0, ""⟩, ⟨1, ""⟩⟩]
  file := ""
  table := [("nest", .optional (.reference "nest"))]

/-- A name, names nested too deep, and the name again. -/
def nestRequests : List Request :=
  [⟨nestParser, 0, .token "name" none⟩, ⟨nestParser, 0, .reference "nest"⟩,
    ⟨nestParser, 0, .token "name" none⟩]

/-- Close to the limit. -/
def deepContext : Context := ⟨["file"], 998⟩

theorem context_restored_nest :
    (∀ outcome ∈ (deepContext.serve nestRequests).1.take 1, tooDeep outcome = false) ∧
    (deepContext.serve nestRequests).2.depth = 999 ∧
    (deepContext.serve nestRequests).1[1]? =
      some ((nestParser.evaluate 0 (.reference "nest")).runFrom deepContext).1 := by
  obtain ⟨-, depth, -, next⟩ := context_restored.2.2 nestRequests deepContext
  have fit : ∀ outcome ∈ (deepContext.serve nestRequests).1.take 1, tooDeep outcome = false := by
    rintro _ (_ | ⟨_, ⟨⟩⟩)
    rfl
  have once : (deepContext.serve nestRequests).1.countP tooDeep = 1 := by rfl
  rw [once] at depth
  exact ⟨fit, depth, next [⟨nestParser, 0, .token "name" none⟩] _ _ rfl fit⟩

end PseudoLang.Grammar
