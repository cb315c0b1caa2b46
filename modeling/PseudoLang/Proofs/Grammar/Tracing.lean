import PseudoLang.Proofs.Grammar.Failure
import PseudoLang.Proofs.Grammar.Restoration

/-!
Syntax errors come from where `Raises` says. Every form of rule is followed through the rules that
it tries (`trace_evaluateRule`): a syntax error that it ends with is either its own, and then it
fails where it stands, or that of a rule that it has come to. So every syntax error that an
evaluation ends with has been raised on a way from its rule, and names the references that are open
at the end of this way (`raises_of_evaluate`).
-/

namespace PseudoLang.Grammar

open Parse

/-! ## Steps from one context -/

namespace Parse

variable {α β : Type} {context : Context} {halts : Halt → Prop} {post : α → Prop}

/-- From this context the step returns what `post` allows and leaves the context as it was, or it
halts as `halts` allows. -/
def Runs (context : Context) (halts : Halt → Prop) (post : α → Prop) (step : Parse α) : Prop :=
  match step.runFrom context with
  | (.ok a, after) => after = context ∧ post a
  | (.error halt, _) => halts halt

theorem Runs.pure {a : α} (h : post a) : Runs context halts post (pure a) := ⟨rfl, h⟩

theorem Runs.bind {step : Parse α} {next : α → Parse β} {mid : α → Prop} {post : β → Prop}
    (h : Runs context halts mid step) (hn : ∀ a, mid a → Runs context halts post (next a)) :
    Runs context halts post (step >>= next) := by
  unfold Runs at h ⊢
  rw [runFrom_bind]
  generalize step.runFrom context = outcome at h
  obtain ⟨halt | a, after⟩ := outcome
  · exact h
  · obtain ⟨rfl, found⟩ := h
    exact hn a found

theorem Runs.mono {step : Parse α} {mid : α → Prop} (h : Runs context halts mid step)
    (hm : ∀ a, mid a → post a) : Runs context halts post step := by
  unfold Runs at h ⊢
  generalize step.runFrom context = outcome at h
  obtain ⟨halt | a, after⟩ := outcome
  · exact h
  · exact ⟨h.1, hm a h.2⟩

theorem Runs.weaken {step : Parse α} {others : Halt → Prop} (h : Runs context halts post step)
    (hh : ∀ halt, halts halt → others halt) : Runs context others post step := by
  unfold Runs at h ⊢
  generalize step.runFrom context = outcome at h
  obtain ⟨halt | a, after⟩ := outcome
  · exact hh halt h
  · exact h

/-- What a step returns is what it comes to from this context. -/
theorem Runs.comes_to {step : Parse α} (h : Runs context halts post step) :
    Runs context halts (fun a => (step.runFrom context).1 = .ok a) step := by
  unfold Runs at h ⊢
  generalize step.runFrom context = outcome at h
  obtain ⟨halt | a, after⟩ := outcome
  · exact h
  · exact ⟨h.1, rfl⟩

theorem Runs.opening {step : Parse α} {names : List String}
    (h : Runs { context with stack := context.stack ++ names } halts post step) :
    Runs context halts post (opening names step) := by
  unfold Runs at h ⊢
  rw [runFrom_opening]
  generalize step.runFrom { context with stack := context.stack ++ names } = outcome at h
  obtain ⟨halt | a, after⟩ := outcome
  · exact h
  · obtain ⟨rfl, found⟩ := h
    exact ⟨by rw [List.take_left], found⟩

theorem Runs.deeper {step : Parse α}
    (h : Runs { context with depth := context.depth + 1 } halts post step) :
    Runs context halts post (deeper step) := by
  unfold Runs at h ⊢
  rw [runFrom_deeper]
  generalize step.runFrom { context with depth := context.depth + 1 } = outcome at h
  obtain ⟨halt | a, after⟩ := outcome
  · exact h
  · obtain ⟨rfl, found⟩ := h
    exact ⟨by rw [Nat.add_sub_cancel], found⟩

/-- How a step may halt. -/
theorem Runs.of_error {step : Parse α} (h : Runs context halts post step) {halt : Halt}
    (ended : (step.runFrom context).1 = .error halt) : halts halt := by
  unfold Runs at h
  generalize step.runFrom context = outcome at h ended
  obtain ⟨other | a, after⟩ := outcome
  · cases ended
    exact h
  · cases ended

end Parse

namespace Parser

variable {p : Parser} {room cursor next : Nat} {rule part : Rule} {context : Context}
  {matched : List Rule} {missed : List (List Rule)} {error : Option String}

/-- If an evaluation with these rules open ends with a syntax error, the rule has raised it. -/
def Traced (p : Parser) (room : Nat) (rule : Rule) (cursor : Nat) (stack : List String)
    (halt : Halt) : Prop :=
  ∀ message before after shown position,
    halt = .error ⟨.syntaxError message before after shown, position⟩ →
    ∃ failing opened, p.Raises message failing room rule cursor opened ∧
      halt = .error (p.syntaxError (stack ++ opened) failing message)

/-- All rules raise the syntax errors that their evaluations end with. -/
def Tracing (p : Parser) (room : Nat) : Prop :=
  ∀ rule cursor context, Runs context (p.Traced room rule cursor context.stack) (fun _ => True)
    (p.evaluateWithin room cursor rule)

/-- What a rule comes to while it is evaluated. -/
abbrev Trace (p : Parser) (room : Nat) (rule : Rule) (cursor : Nat) (context : Context) {α : Type}
    (post : α → Prop) (step : Parse α) : Prop :=
  Runs context (p.Traced (room + 1) rule cursor context.stack) post step

/-- A cause of failure that is no syntax error. -/
def OtherCause (cause : Cause) : Prop :=
  ∀ message before after shown, cause ≠ .syntaxError message before after shown

theorem trace_fail {α : Type} {post : α → Prop} {cause : Cause} (other : OtherCause cause) :
    p.Trace room rule cursor context post (p.fail next cause) := by
  rintro message before after shown position ⟨⟩
  exact absurd rfl (other _ _ _ _)

theorem trace_lift {α : Type} {result : Except Cause α}
    (other : ∀ cause, result = .error cause → OtherCause cause) :
    p.Trace room rule cursor context (fun a => result = .ok a) (p.lift next result) := by
  cases result with
  | ok a => exact .pure rfl
  | error cause => exact trace_fail (other cause rfl)

theorem trace_failSyntax {α : Type} {post : α → Prop} {message : String}
    (fails : rule.Fails message matched missed) (comes : p.Comes room matched missed cursor next) :
    p.Trace room rule cursor context post (p.failSyntax next message) := by
  rintro _ _ _ _ _ ⟨⟩
  exact ⟨next, [], .fails fails comes, by rw [List.append_nil]⟩

theorem trace_noMatch {α : Type} {post : Option α → Prop}
    (fails : ∀ message, error = some message → rule.Fails message matched missed)
    (comes : p.Comes room matched missed cursor next) (unmatched : post none) :
    p.Trace room rule cursor context post (p.noMatch next error) := by
  cases error with
  | none => exact .pure unmatched
  | some message => exact trace_failSyntax (fails message rfl) comes

/-- The cursor after a match satisfies `here`; without a match `ended` holds. -/
def Reached {α : Type} (here : Nat → Prop) (ended : Prop) : Option (Nat × α) → Prop
  | none => ended
  | some (next, _) => here next

/-- A loop whose rounds lead from where `here` holds to where it holds again. It ends where `ended`
holds. -/
theorem trace_repetition {round : Round} {here ended : Nat → Prop}
    (hr : ∀ position, here position →
      p.Trace room rule cursor context (Reached here (ended position)) (round position))
    (start : here next) (values : List SyntaxTree) :
    p.Trace room rule cursor context (fun result => here result.1 ∧ ended result.1)
      (p.repetition round next values) := by
  unfold repetition
  generalize p.tokens.size - next + 1 = rounds
  generalize values.reverse = values
  induction rounds generalizing next values with
  -- A loop that goes on for ever ends with no syntax error.
  | zero => exact fun _ _ _ _ _ endless => nomatch endless
  | succ rounds ih =>
    apply (hr next start).bind
    rintro (_ | ⟨stop, more⟩) found
    · exact .pure ⟨start, found⟩
    · exact ih found _

theorem trace_moving {round : Round} {here : Nat → Prop} {position : Nat}
    (h : p.Trace room rule cursor context (Reached here True) (round position)) :
    p.Trace room rule cursor context (Reached here True) (moving round position) := by
  apply h.bind
  rintro (_ | ⟨next, values⟩) found
  · exact .pure trivial
  · apply Runs.pure
    split
    · trivial
    · exact found

theorem trace_token (kind : String) (error : Option String) :
    p.Trace room (.token kind error) cursor context (fun _ => True)
      (p.evaluateRule (p.evaluateWithin room) cursor (.token kind error)) := by
  have absent (h : ∀ token, p.tokens[cursor]? = some token → token.typeName ≠ kind) :
      p.Trace room (.token kind error) cursor context (fun _ => True)
        (p.noMatch cursor error : Parse Match) := by
    cases error with
    | none => exact .pure trivial
    | some message =>
      rintro _ _ _ _ _ ⟨⟩
      exact ⟨cursor, [], .token h, by rw [List.append_nil]⟩
  cases here : p.tokens[cursor]? with
  | none =>
    simp only [evaluateRule, here]
    exact absent (by simp [here])
  | some token =>
    simp only [evaluateRule, here]
    by_cases same : token.typeName = kind
    · rw [if_pos same]
      exact .pure trivial
    · rw [if_neg same]
      exact absent (by simpa [here] using same)

section

variable (ih : p.Tracing room)

include ih

/-- A rule that is tried returns, or raises a syntax error. -/
theorem trace_part (tries : rule.Tries matched missed part)
    (comes : p.Comes room matched missed cursor next) :
    p.Trace room rule cursor context
      (fun result => Returns result (p.evaluateWithin room next part))
      (p.evaluateWithin room next part) := by
  apply ((ih part next context).comes_to.mono fun _ => returns_evaluateWithin).weaken
  intro halt traced message before after shown position same
  obtain ⟨failing, opened, raises, here⟩ := traced message before after shown position same
  exact ⟨failing, opened, .tries tries comes raises, here⟩

/-- Rules that are tried one after the other all match, or one of them does not. -/
theorem trace_inTurn {rules : List Rule} : ∀ {matched : List Rule} {next : Nat},
    (∀ before part after, rules = before ++ part :: after →
      rule.Tries (matched ++ before) [] part) →
    p.Comes room matched [] cursor next →
    p.Trace room rule cursor context
      (fun
        | .stopped stop => ∃ before part after, rules = before ++ part :: after ∧
          p.Comes room (matched ++ before) [[part]] cursor stop
        | .done stop _ => p.Comes room (matched ++ rules) [] cursor stop)
      (inTurn (p.evaluateWithin room) rules next) := by
  induction rules with
  | nil =>
    intro matched next _ comes
    exact .pure (by rwa [List.append_nil])
  | cons part rules ih' =>
    intro matched next tries comes
    have first : rule.Tries matched [] part := by
      have := tries [] part rules rfl
      rwa [List.append_nil] at this
    apply (trace_part ih first comes).bind
    rintro (_ | ⟨middle, tree⟩) found
    · refine .pure ⟨[], part, rules, rfl, ?_⟩
      rw [List.append_nil]
      exact comes.missed (misses_of_returns found [])
    · have later : ∀ before other after, rules = before ++ other :: after →
          rule.Tries (matched ++ [part] ++ before) [] other := by
        rintro before other after rfl
        have := tries (part :: before) other after rfl
        rwa [List.append_assoc]
      apply (ih' later (comes.matched found)).bind
      rintro (stop | ⟨stop, values⟩) progress
      · obtain ⟨before, other, after, rfl, comes⟩ := progress
        refine .pure ⟨part :: before, other, after, rfl, ?_⟩
        rwa [List.append_assoc] at comes
      · refine .pure ?_
        dsimp only at progress ⊢
        rwa [List.append_assoc] at progress

/-- Alternatives are tried until one matches. -/
theorem trace_firstOf {all alternatives : List (String × Rule)} :
    ∀ {earlier : List (String × Rule)}, all = earlier ++ alternatives →
      p.Comes room [] (earlier.map fun alternative => [alternative.2]) cursor cursor →
      p.Trace room (.choice all error) cursor context
        (fun result => result = none →
          p.Comes room [] (all.map fun alternative => [alternative.2]) cursor cursor)
        (firstOf (p.evaluateWithin room) cursor alternatives) := by
  induction alternatives with
  | nil =>
    intro earlier split comes
    rw [List.append_nil] at split
    exact .pure fun _ => split ▸ comes
  | cons alternative alternatives ih' =>
    rintro earlier split comes
    obtain ⟨tag, part⟩ := alternative
    have tries : (Rule.choice all error).Tries []
        (earlier.map fun alternative => [alternative.2]) part := split ▸ .choice
    apply (trace_part ih tries comes).bind
    rintro (_ | ⟨stop, tree⟩) found
    · apply ih' (split.trans (List.append_cons _ _ _))
      rw [List.map_append]
      exact comes.missed (misses_of_returns found [])
    · exact .pure nofun

/-- A round of two rules matches with both of them, or with neither. -/
theorem trace_following {before : Rule} (first : rule.Tries matched [] before)
    (second : rule.Tries (matched ++ [before]) [] part)
    (comes : p.Comes room matched [] cursor next) (keep : Bool) :
    p.Trace room rule cursor context
      (Reached (p.Comes room (matched ++ [before] ++ [part]) [] cursor)
        (p.Misses room [before, part] next))
      (following (p.evaluateWithin room) keep before part next) := by
  apply (trace_part ih first comes).bind
  rintro (_ | ⟨middle, value⟩) found
  · exact .pure (misses_of_returns found [part])
  · have between := comes.matched found
    apply (trace_part ih second between).bind
    rintro (_ | ⟨stop, last⟩) found'
    · exact .pure ⟨[before], part, [], middle, rfl, .cons found (.nil middle), found'⟩
    · exact .pure (between.matched found')

/-! Each form of rule raises the syntax errors that it ends with. -/

theorem trace_reference (name : String) :
    p.Trace room (.reference name) cursor context (fun _ => True)
      (p.evaluateRule (p.evaluateWithin room) cursor (.reference name)) := by
  have other (cause : Cause) (failed : p.table.resolve name = .error cause) : OtherCause cause := by
    obtain rfl | ⟨missing, rfl⟩ := Table.follow_error_cases failed <;> exact nofun
  apply (trace_lift other).bind
  rintro ⟨chain, inner⟩ resolved
  have leads := Table.resolve_eq_ok.mp resolved
  apply Runs.opening
  apply (ih inner cursor _).weaken
  intro halt traced message before after shown position same
  obtain ⟨failing, opened, raises, here⟩ := traced message before after shown position same
  refine ⟨failing, chain ++ opened, .reference leads raises, ?_⟩
  rwa [← List.append_assoc]

theorem trace_filter (name : String) (part : Rule) :
    p.Trace room (.filter name part) cursor context (fun _ => True)
      (p.evaluateRule (p.evaluateWithin room) cursor (.filter name part)) := by
  apply (trace_part ih .filter (comes_start p room cursor)).bind
  rintro (_ | ⟨next, value⟩) _
  · exact .pure trivial
  · dsimp only
    split
    · exact trace_fail nofun
    · rename_i filter known
      have other (cause : Cause) (failed : filter value = .error cause) : OtherCause cause := by
        rw [Filter.named?_eq_some known] at failed
        obtain rfl | ⟨_, _, _, rfl, -⟩ := Filter.precedence_eq_error failed <;> exact nofun
      exact (trace_lift other).bind fun _ _ => .pure trivial

theorem trace_optional (part : Rule) :
    p.Trace room (.optional part) cursor context (fun _ => True)
      (p.evaluateRule (p.evaluateWithin room) cursor (.optional part)) := by
  apply (trace_part ih .optional (comes_start p room cursor)).bind
  rintro (_ | ⟨next, value⟩) _ <;> exact .pure trivial

theorem trace_many (part : Rule) :
    p.Trace room (.many part) cursor context (fun _ => True)
      (p.evaluateRule (p.evaluateWithin room) cursor (.many part)) := by
  let here (position : Nat) : Prop := ∃ n, p.Comes room (Rule.rounds n [part]) [] cursor position
  have turn (position : Nat) (h : here position) :
      p.Trace room (.many part) cursor context (Reached here True)
        (single (p.evaluateWithin room) part position) := by
    obtain ⟨n, comes⟩ := h
    apply (trace_part ih (.many n) comes).bind
    rintro (_ | ⟨next, value⟩) found
    · exact .pure trivial
    · refine .pure ⟨n + 1, ?_⟩
      rw [Rule.rounds_succ]
      exact comes.matched found
  have start : here cursor := ⟨0, comes_start p room cursor⟩
  exact (trace_repetition (fun position h => trace_moving (turn position h)) start []).bind
    fun _ _ => .pure trivial

theorem trace_cycle (rules : List Rule) :
    p.Trace room (.cycle rules) cursor context (fun _ => True)
      (p.evaluateRule (p.evaluateWithin room) cursor (.cycle rules)) := by
  let here (position : Nat) : Prop := ∃ n, p.Comes room (Rule.rounds n rules) [] cursor position
  have turn (position : Nat) (h : here position) :
      p.Trace room (.cycle rules) cursor context (Reached here True)
        (together (p.evaluateWithin room) rules position) := by
    obtain ⟨n, comes⟩ := h
    have tries : ∀ before part after, rules = before ++ part :: after →
        (Rule.cycle rules).Tries (Rule.rounds n rules ++ before) [] part := by
      rintro before part after rfl
      exact .cycle n
    apply (trace_inTurn ih tries comes).bind
    rintro (stop | ⟨stop, values⟩) progress
    · exact .pure trivial
    · refine .pure ⟨n + 1, ?_⟩
      rw [Rule.rounds_succ]
      exact progress
  have start : here cursor := ⟨0, comes_start p room cursor⟩
  exact (trace_repetition (fun position h => trace_moving (turn position h)) start []).bind
    fun _ _ => .pure trivial

theorem trace_split (primary secondary : Rule) (error : Option String) :
    p.Trace room (.split primary secondary error) cursor context (fun _ => True)
      (p.evaluateRule (p.evaluateWithin room) cursor (.split primary secondary error)) := by
  let here (position : Nat) : Prop :=
    ∃ n, p.Comes room (Rule.rounds n [primary, secondary] ++ [primary]) [] cursor position
  have turn (position : Nat) (h : here position) :
      p.Trace room (.split primary secondary error) cursor context (Reached here True)
        (following (p.evaluateWithin room) true secondary primary position) := by
    obtain ⟨n, comes⟩ := h
    -- The loop takes the two rules the other way round: a secondary completes the round before.
    have again := Rule.rounds_pair n primary secondary
    apply (trace_following ih (.secondary n) (again ▸ .primary (n + 1)) comes true).mono
    rintro (_ | ⟨next, values⟩) found
    · trivial
    · rw [again] at found
      exact ⟨n + 1, found⟩
  have start := comes_start p room cursor
  apply (trace_part ih (.primary 0) start).bind
  rintro (_ | ⟨next, value⟩) found
  · refine trace_noMatch ?_ (start.missed (misses_of_returns found [])) trivial
    rintro message rfl
    exact .split
  · have first : here next := ⟨0, start.matched found⟩
    exact (trace_repetition (fun position h => trace_moving (turn position h)) first [value]).bind
      fun _ _ => .pure trivial

theorem trace_sequence (rules : List Rule) (error : Option String) :
    p.Trace room (.sequence rules error) cursor context (fun _ => True)
      (p.evaluateRule (p.evaluateWithin room) cursor (.sequence rules error)) := by
  have tries : ∀ before part after, rules = before ++ part :: after →
      (Rule.sequence rules error).Tries ([] ++ before) [] part := by
    rintro before part after rfl
    exact .sequence
  apply (trace_inTurn ih tries (comes_start p room cursor)).bind
  rintro (stop | ⟨stop, values⟩) progress
  · obtain ⟨before, part, after, rfl, comes⟩ := progress
    refine trace_noMatch ?_ comes trivial
    rintro message rfl
    exact .sequence
  · exact .pure trivial

theorem trace_content (left right : Rule) {separator : Option Rule} {element : Rule}
    (comes : p.Comes room [left] [] cursor next) :
    p.Trace room (.delimited left right separator element error) cursor context
      (fun result => ∀ stop tree, result = some (stop, tree) →
        ∃ matched missed, Rule.Encloses element separator matched missed ∧
          p.Comes room (left :: matched) missed cursor stop)
      (p.content (p.evaluateWithin room) separator element error next) := by
  cases separator with
  | none =>
    apply (trace_part ih .one comes).bind
    rintro (_ | ⟨stop, value⟩) found
    · refine trace_noMatch ?_ (comes.missed (misses_of_returns found [])) nofun
      rintro message rfl
      exact .element
    · apply Runs.pure
      rintro _ _ ⟨⟩
      exact ⟨[element], [], .one, comes.matched found⟩
  | some separator =>
    let rule : Rule := .delimited left right (some separator) element error
    let here (position : Nat) : Prop :=
      ∃ n, p.Comes room (left :: (Rule.rounds n [element, separator] ++ [element])) [] cursor
        position
    have turn (position : Nat) (h : here position) :
        p.Trace room rule cursor context
          (Reached here (p.Misses room [separator, element] position))
          (following (p.evaluateWithin room) false separator element position) := by
      obtain ⟨n, comes⟩ := h
      have again : left :: (Rule.rounds n [element, separator] ++ [element]) ++ [separator] =
          left :: Rule.rounds (n + 1) [element, separator] :=
        congrArg (left :: ·) (Rule.rounds_pair n element separator)
      apply (trace_following ih (.separator n) (again ▸ .element (n + 1)) comes false).mono
      rintro (_ | ⟨next, values⟩) found
      · exact found
      · rw [again] at found
        exact ⟨n + 1, found⟩
    apply (trace_part ih (.element 0) comes).bind
    rintro (_ | ⟨stop, value⟩) found
    · apply Runs.pure
      rintro _ _ ⟨⟩
      exact ⟨[], _, .empty, comes.missed (misses_of_returns found [])⟩
    · have first : here stop := ⟨0, comes.matched found⟩
      apply (trace_repetition turn first [value]).bind
      rintro ⟨stop, values⟩ ⟨⟨n, comes⟩, misses⟩
      apply Runs.pure
      rintro _ _ ⟨⟩
      exact ⟨_, _, .list n, comes.missed misses⟩

theorem trace_delimited (left right : Rule) (separator : Option Rule) (element : Rule)
    (error : Option String) :
    p.Trace room (.delimited left right separator element error) cursor context (fun _ => True)
      (p.evaluateRule (p.evaluateWithin room) cursor
        (.delimited left right separator element error)) := by
  have start := comes_start p room cursor
  apply (trace_part ih .left start).bind
  rintro (_ | ⟨opened, before⟩) found
  · exact .pure trivial
  · apply (trace_content ih left right (start.matched found)).bind
    rintro (_ | ⟨position, value⟩) enclosed
    · exact .pure trivial
    · obtain ⟨matched, missed, encloses, comes⟩ := enclosed position value rfl
      apply (trace_part ih (.right encloses) comes).bind
      rintro (_ | ⟨stop, after⟩) found
      · refine trace_noMatch ?_ (comes.missed (misses_of_returns found [])) trivial
        rintro message rfl
        exact .right encloses
      · exact .pure trivial

theorem trace_choice (alternatives : List (String × Rule)) (error : Option String) :
    p.Trace room (.choice alternatives error) cursor context (fun _ => True)
      (p.evaluateRule (p.evaluateWithin room) cursor (.choice alternatives error)) := by
  have split : alternatives = [] ++ alternatives := rfl
  apply (trace_firstOf ih split (comes_start p room cursor)).bind
  rintro (_ | result) found
  · refine trace_noMatch ?_ (found rfl) trivial
    rintro message rfl
    exact .choice
  · exact .pure trivial

theorem trace_required (part : Rule) (message : String) :
    p.Trace room (.required part message) cursor context (fun _ => True)
      (p.evaluateRule (p.evaluateWithin room) cursor (.required part message)) := by
  have start := comes_start p room cursor
  apply (trace_part ih .required start).bind
  rintro (_ | result) found
  · exact trace_failSyntax .required (start.missed (misses_of_returns found []))
  · exact .pure trivial

theorem trace_pair (left separator right : Rule) :
    p.Trace room (.pair left separator right) cursor context (fun _ => True)
      (p.evaluateRule (p.evaluateWithin room) cursor (.pair left separator right)) := by
  have start := comes_start p room cursor
  apply (trace_part ih .pairLeft start).bind
  rintro (_ | ⟨position, first⟩) found
  · apply (trace_part ih .rightAlone (start.missed (misses_of_returns found []))).bind
    rintro (_ | ⟨stop, value⟩) _ <;> exact .pure trivial
  · have comes := start.matched found
    apply (trace_part ih .pairSeparator comes).bind
    rintro (_ | ⟨middle, between⟩) found
    · exact .pure trivial
    · apply (trace_part ih .pairRight (comes.matched found)).bind
      rintro (_ | ⟨stop, value⟩) _ <;> exact .pure trivial

theorem trace_evaluateRule (rule : Rule) (cursor : Nat) (context : Context) :
    p.Trace room rule cursor context (fun _ => True)
      (p.evaluateRule (p.evaluateWithin room) cursor rule) := by
  cases rule with
  | reference name => exact trace_reference ih name
  | token kind error => exact trace_token kind error
  | filter name part => exact trace_filter ih name part
  | optional part => exact trace_optional ih part
  | many part => exact trace_many ih part
  | cycle rules => exact trace_cycle ih rules
  | split primary secondary error => exact trace_split ih primary secondary error
  | sequence rules error => exact trace_sequence ih rules error
  | delimited left right separator element error =>
    exact trace_delimited ih left right separator element error
  | choice alternatives error => exact trace_choice ih alternatives error
  | required part message => exact trace_required ih part message
  | pair left separator right => exact trace_pair ih left separator right

end

/-- Rules inside each other raise the syntax errors that their evaluations end with, up to any
number of them. -/
theorem tracing (p : Parser) (room : Nat) : p.Tracing room := by
  induction room with
  -- Without room the evaluation is nested too deep, which is no syntax error.
  | zero =>
    rintro rule cursor context message before after shown position ⟨⟩
  | succ room ih => exact fun rule cursor context => (trace_evaluateRule ih rule cursor _).deeper

/-- A syntax error is raised by a rule that fails where the evaluation has come to it, and names the
rules that were open before and those that have been opened on the way. -/
theorem raises_of_evaluate {p : Parser} {cursor : Nat} {rule : Rule} {context : Context}
    {message : String} {before after stack : List String} {position : Position}
    (ended : ((p.evaluate cursor rule).runFrom context).1 =
      .error (.error ⟨.syntaxError message before after stack, position⟩)) :
    ∃ failing opened, p.Raises message failing (maxDepth - context.depth) rule cursor opened ∧
      (⟨.syntaxError message before after stack, position⟩ : Error) =
        p.syntaxError (context.stack ++ opened) failing message := by
  rw [runFrom_evaluate] at ended
  obtain ⟨failing, opened, raises, same⟩ :=
    (tracing p _ rule cursor context).of_error ended message before after stack position rfl
  exact ⟨failing, opened, raises, Halt.error.inj same⟩

end Parser

end PseudoLang.Grammar
