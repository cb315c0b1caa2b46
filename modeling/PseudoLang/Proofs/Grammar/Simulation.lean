import PseudoLang.Proofs.Grammar.Classes
import PseudoLang.Proofs.Grammar.Derivation

/-!
Two parses side by side. A step simulates another one if it does what the other one does: it
returns the same up to a relation between the results, and ends early in the same way as far as a
tolerance asks for it. Two parsers whose tokens agree wherever a rule looks simulate each other on
that rule (`simulates_evaluateWithin`); if the rule ends with a token that nothing inside it goes
past, it looks at nothing after that token (`simulates_closing`).
-/

namespace PseudoLang.Grammar

/-- How the ends of two parses may differ. -/
structure Tolerance where
  /-- After such an end of the first parse nothing is asked of the second. -/
  excused : Halt → Prop
  /-- Ends of the first and the second parse that count as the same. -/
  alike : Halt → Halt → Prop

namespace Tolerance

variable (t : Tolerance)

/-- The two parses may end like this. -/
def Allows (halt other : Halt) : Prop := t.excused halt ∨ t.alike halt other

/-- What comes of the first parse comes of the second as well. -/
def Agrees {α β : Type} (rel : α → β → Prop) : Except Halt α → Except Halt β → Prop
  | .ok a, .ok b => rel a b
  | .ok _, .error _ => False
  | .error halt, .ok _ => t.excused halt
  | .error halt, .error other => t.Allows halt other

/-- A tolerance for every end of a parse: only what a parse returns matters. -/
def any : Tolerance := ⟨fun _ => True, fun _ _ => False⟩

variable {t} {α β : Type} {rel : α → β → Prop}

theorem Agrees.excuse {halt : Halt} (h : t.excused halt) (outcome : Except Halt β) :
    t.Agrees rel (.error halt) outcome := by
  cases outcome with
  | error other => exact .inl h
  | ok b => exact h

end Tolerance

/-! ## Steps -/

namespace Parse

variable {t : Tolerance} {α β γ δ : Type} {rel : α → β → Prop} {step : Parse α} {other : Parse β}

/-- From whatever contexts the two steps are run, the second one does what the first one does. -/
def Simulates (t : Tolerance) (rel : α → β → Prop) (step : Parse α) (other : Parse β) : Prop :=
  ∀ context context', t.Agrees rel (step.runFrom context).1 (other.runFrom context').1

theorem Simulates.pure {a : α} {b : β} (h : rel a b) :
    Simulates t rel (pure a) (pure b) := fun _ _ => h

theorem Simulates.excuse {halt : Halt} (h : t.excused halt) (other : Parse β) :
    Simulates t rel (throw halt : Parse α) other := fun _ _ => .excuse h _

theorem Simulates.throw {halt other : Halt} (h : t.Allows halt other) :
    Simulates t rel (throw halt : Parse α) (throw other : Parse β) := fun _ _ => h

theorem Simulates.bind {next : α → Parse γ} {next' : β → Parse δ} {post : γ → δ → Prop}
    (h : Simulates t rel step other) (hn : ∀ a b, rel a b → Simulates t post (next a) (next' b)) :
    Simulates t post (step >>= next) (other >>= next') := by
  intro context context'
  have first := h context context'
  rw [runFrom_bind, runFrom_bind]
  generalize step.runFrom context = outcome at first
  generalize other.runFrom context' = outcome' at first
  obtain ⟨halt | a, after⟩ := outcome
  · obtain ⟨halt' | b, after'⟩ := outcome'
    · exact first
    · exact .excuse first _
  · obtain ⟨halt' | b, after'⟩ := outcome'
    · exact first.elim
    · exact hn a b first after after'

theorem Simulates.mono {post : α → β → Prop} (h : Simulates t rel step other)
    (hm : ∀ a b, rel a b → post a b) : Simulates t post step other := by
  intro context context'
  have first := h context context'
  generalize (step.runFrom context).1 = outcome at first
  generalize (other.runFrom context').1 = outcome' at first
  cases outcome with
  | error halt =>
    cases outcome' with
    | error halt' => exact first
    | ok b => exact first
  | ok a =>
    cases outcome' with
    | error halt' => exact first
    | ok b => exact hm a b first

theorem Simulates.deeper (h : Simulates t rel step other) :
    Simulates t rel (deeper step) (deeper other) := fun _ _ => h _ _

theorem Simulates.opening (h : Simulates t rel step other) (names names' : List String) :
    Simulates t rel (opening names step) (opening names' other) := fun _ _ => h _ _

end Parse

namespace Parser

open Parse

/-! ## Parsers over tokens that agree -/

/-- Cursors of two parsers that are near each other have the same tokens ahead, and stay near each
other when both move on, unless it is past a token of the kinds that are a barrier. -/
structure Aligned (t : Tolerance) (barrier : List String) (near : Nat → Nat → Prop)
    (p q : Parser) : Prop where
  table : q.table = p.table
  terminal : ∀ {i j : Nat}, near i j →
    p.tokens[i]?.map Token.terminal = q.tokens[j]?.map Token.terminal
  next : ∀ {i j : Nat} {token : Token}, near i j → p.tokens[i]? = some token →
    token.typeName ∉ barrier → near (i + 1) (j + 1)
  same : ∀ {i j k l : Nat}, near i j → near k l → (i = k ↔ j = l)
  rounds : ∀ {i j : Nat}, near i j → p.tokens.size - i ≤ q.tokens.size - j ∧
    (t.excused .endless ∨ q.tokens.size - j ≤ p.tokens.size - i)
  endless : t.Allows .endless .endless
  fail : ∀ {i j : Nat}, near i j → ∀ cause,
    t.Allows (.error ⟨cause, p.position i⟩) (.error ⟨cause, q.position j⟩)
  failSyntax : ∀ {i j : Nat}, near i j → ∀ message stack stack',
    t.Allows (.error (p.syntaxError stack i message)) (.error (q.syntaxError stack' j message))
  deep : ∀ position, t.excused (.error ⟨.nestingTooDeep maxDepth, position⟩)

/-- Cursors that are near each other, or have both moved on from there by one token. -/
def Past (near : Nat → Nat → Prop) (i j : Nat) : Prop :=
  near i j ∨ ∃ k l, near k l ∧ i = k + 1 ∧ j = l + 1

/-- Neither of the two finds anything, or both find the same and come to cursors that are near. -/
inductive Meets {α : Type} (near : Nat → Nat → Prop) :
    Option (Nat × α) → Option (Nat × α) → Prop
  | none : Meets near none none
  | some {i j : Nat} {a : α} : near i j → Meets near (some (i, a)) (some (j, a))

/-- Two sequences of rules that have come equally far. -/
inductive Abreast (near after : Nat → Nat → Prop) : Progress → Progress → Prop
  | stopped {i j : Nat} : near i j → Abreast near after (.stopped i) (.stopped j)
  | done {i j : Nat} {values : List SyntaxTree} :
    after i j → Abreast near after (.done i values) (.done j values)

variable {t : Tolerance} {barrier : List String} {near after : Nat → Nat → Prop} {p q : Parser}
  {within : Rule → Prop} {evaluate evaluate' : Evaluator}

theorem Meets.mono {α : Type} {result other : Option (Nat × α)} (h : Meets near result other)
    (hm : ∀ i j, near i j → after i j) : Meets after result other := by
  cases h with
  | none => exact .none
  | some here => exact .some (hm _ _ here)

/-- Tokens that are the same up to a barrier. -/
theorem aligned_upTo {barrier : List String} {last : Nat} (table : q.table = p.table)
    (agree : ∀ i ≤ last, p.tokens[i]?.map Token.terminal = q.tokens[i]?.map Token.terminal)
    (ends : ∀ token, p.tokens[last]? = some token → token.typeName ∈ barrier)
    (size : p.tokens.size ≤ q.tokens.size) :
    p.Aligned .any barrier (fun i j => i = j ∧ i ≤ last) q where
  table := table
  terminal := by
    rintro i _ ⟨rfl, inside⟩
    exact agree i inside
  next := by
    rintro i _ token ⟨rfl, inside⟩ here free
    have other : i ≠ last := by
      rintro rfl
      exact free (ends token here)
    exact ⟨rfl, by omega⟩
  same := by omega
  rounds := by
    rintro i _ ⟨rfl, -⟩
    exact ⟨by omega, .inl trivial⟩
  endless := .inl trivial
  fail _ _ := .inl trivial
  failSyntax _ _ _ _ := .inl trivial
  deep _ := trivial

/-- Tokens that are the same after others. -/
theorem aligned_after {shift : Nat} (table : q.table = p.table)
    (agree : ∀ i, p.tokens[i]?.map Token.terminal = q.tokens[shift + i]?.map Token.terminal)
    (size : p.tokens.size + shift ≤ q.tokens.size) :
    p.Aligned .any [] (fun i j => j = shift + i) q where
  table := table
  terminal := by
    rintro i _ rfl
    exact agree i
  next := by
    rintro i _ _ rfl _ _
    rfl
  same := by omega
  rounds := by
    rintro i _ rfl
    exact ⟨by omega, .inl trivial⟩
  endless := .inl trivial
  fail _ _ := .inl trivial
  failSyntax _ _ _ _ := .inl trivial
  deep _ := trivial

/-- Evaluations that simulate each other on a class of rules. -/
def EvaluatesAlike (t : Tolerance) (near : Nat → Nat → Prop) (within : Rule → Prop)
    (evaluate evaluate' : Evaluator) : Prop :=
  ∀ rule, within rule → ∀ i j, near i j →
    Simulates t (Meets near) (evaluate i rule) (evaluate' j rule)

section

variable (aligned : p.Aligned t barrier near q)

include aligned

theorem simulates_fail {α β : Type} {rel : α → β → Prop} {i j : Nat} (here : near i j)
    (cause : Cause) : Simulates t rel (p.fail i cause) (q.fail j cause) :=
  .throw (aligned.fail here cause)

theorem simulates_failSyntax {α β : Type} {rel : α → β → Prop} {i j : Nat} (here : near i j)
    (message : String) : Simulates t rel (p.failSyntax i message) (q.failSyntax j message) :=
  fun _ _ => aligned.failSyntax here message _ _

theorem simulates_noMatch {α : Type} {i j : Nat} (here : near i j) (error : Option String) :
    Simulates t (Meets (α := α) after) (p.noMatch i error) (q.noMatch j error) := by
  cases error with
  | none => exact .pure .none
  | some message => exact simulates_failSyntax aligned here message

theorem simulates_lift {α : Type} {i j : Nat} (here : near i j) (result : Except Cause α) :
    Simulates t (fun a b => b = a ∧ result = .ok a) (p.lift i result) (q.lift j result) := by
  cases result with
  | ok a => exact .pure ⟨rfl, rfl⟩
  | error cause => exact simulates_fail aligned here cause

end

/-! ## Sequences and choices -/

theorem simulates_inTurn (he : EvaluatesAlike t near within evaluate evaluate')
    {rules rest : List Rule} (hw : ∀ rule ∈ rules, within rule)
    (hr : ∀ i j, near i j →
      Simulates t (Abreast near after) (inTurn evaluate rest i) (inTurn evaluate' rest j)) :
    ∀ i j, near i j → Simulates t (Abreast near after) (inTurn evaluate (rules ++ rest) i)
      (inTurn evaluate' (rules ++ rest) j) := by
  induction rules with
  | nil => exact hr
  | cons rule rules ih =>
    intro i j here
    obtain ⟨hw, hws⟩ := List.forall_mem_cons.mp hw
    apply (he rule hw i j here).bind
    rintro _ _ (_ | next)
    · exact .pure (.stopped here)
    · apply (ih hws _ _ next).bind
      rintro _ _ (stopped | done)
      · exact .pure (.stopped stopped)
      · exact .pure (.done done)

/-- Rules of the class only. -/
theorem simulates_allInTurn (he : EvaluatesAlike t near within evaluate evaluate')
    {rules : List Rule} (hw : ∀ rule ∈ rules, within rule) {i j : Nat} (here : near i j) :
    Simulates t (Abreast near near) (inTurn evaluate rules i) (inTurn evaluate' rules j) := by
  have turns : Simulates t (Abreast near near) (inTurn evaluate (rules ++ []) i)
      (inTurn evaluate' (rules ++ []) j) :=
    simulates_inTurn he hw (fun _ _ near => .pure (.done near)) i j here
  rwa [List.append_nil] at turns

theorem simulates_firstOf {alternatives : List (String × Rule)} {i j : Nat}
    (h : ∀ alternative ∈ alternatives, Simulates t (Meets after) (evaluate i alternative.2)
      (evaluate' j alternative.2)) :
    Simulates t (Meets after) (firstOf evaluate i alternatives)
      (firstOf evaluate' j alternatives) := by
  induction alternatives with
  | nil => exact .pure .none
  | cons alternative alternatives ih =>
    obtain ⟨tag, rule⟩ := alternative
    obtain ⟨first, rest⟩ := List.forall_mem_cons.mp h
    apply first.bind
    rintro _ _ (_ | next)
    · exact ih rest
    · exact .pure (.some next)

/-! ## Repetitions -/

/-- Rounds that simulate each other. -/
def RoundsAlike (t : Tolerance) (near : Nat → Nat → Prop) (round round' : Round) : Prop :=
  ∀ i j, near i j → Simulates t (Meets near) (round i) (round' j)

variable {round round' : Round}

theorem RoundsAlike.moving (aligned : p.Aligned t barrier near q)
    (h : RoundsAlike t near round round') :
    RoundsAlike t near (moving round) (moving round') := by
  intro i j here
  apply (h i j here).bind
  rintro _ _ (_ | next)
  · exact .pure .none
  · rename_i k l values
    have same := aligned.same next here
    by_cases stays : k = i
    · have stays' := same.mp stays
      simp only [stays, stays', if_true]
      exact .pure .none
    · have moves : l ≠ j := fun stays' => stays (same.mpr stays')
      simp only [if_neg stays, if_neg moves]
      exact .pure (.some next)

theorem RoundsAlike.single (he : EvaluatesAlike t near within evaluate evaluate') {rule : Rule}
    (hw : within rule) :
    RoundsAlike t near (single evaluate rule) (single evaluate' rule) := by
  intro i j here
  apply (he rule hw i j here).bind
  rintro _ _ (_ | next)
  · exact .pure .none
  · exact .pure (.some next)

theorem RoundsAlike.together (he : EvaluatesAlike t near within evaluate evaluate')
    {rules : List Rule} (hw : ∀ rule ∈ rules, within rule) :
    RoundsAlike t near (together evaluate rules) (together evaluate' rules) := by
  intro i j here
  apply (simulates_allInTurn he hw here).bind
  rintro _ _ (stopped | done)
  · exact .pure .none
  · exact .pure (.some done)

theorem RoundsAlike.following (he : EvaluatesAlike t near within evaluate evaluate') (keep : Bool)
    {before rule : Rule} (hb : within before) (hr : within rule) :
    RoundsAlike t near (following evaluate keep before rule)
      (following evaluate' keep before rule) := by
  intro i j here
  apply (he before hb i j here).bind
  rintro _ _ (_ | middle)
  · exact .pure .none
  · apply (he rule hr _ _ middle).bind
    rintro _ _ (_ | next)
    · exact .pure .none
    · exact .pure (.some next)

/-- The second repetition may have more rounds left than the first, and more trees before those
that the first has collected. -/
theorem simulates_iterate (h : RoundsAlike t near round round')
    (endless : t.Allows .endless .endless) (before : List SyntaxTree) (rounds : Nat) :
    ∀ rounds', rounds ≤ rounds' → (t.excused .endless ∨ rounds' ≤ rounds) →
      ∀ i j, near i j → ∀ values,
        Simulates t (fun result other => near result.1 other.1 ∧ other.2 = before ++ result.2)
          (iterate round rounds i values)
          (iterate round' rounds' j (values ++ before.reverse)) := by
  induction rounds with
  | zero =>
    intro rounds' _ enough i j _ values
    obtain excused | none := enough
    · exact .excuse excused _
    · rw [Nat.le_zero.mp none]
      exact .throw endless
  | succ rounds ih =>
    intro rounds' less enough i j here values
    obtain ⟨rounds', rfl⟩ := Nat.exists_eq_succ_of_ne_zero (Nat.ne_zero_of_lt less)
    apply (h i j here).bind
    rintro _ _ (_ | next)
    · refine .pure ⟨here, ?_⟩
      simp
    · rename_i k l more
      have fewer : rounds ≤ rounds' := by omega
      have still : t.excused .endless ∨ rounds' ≤ rounds := enough.imp_right (by omega)
      dsimp only
      rw [← List.append_assoc]
      exact ih rounds' fewer still k l next (more.reverse ++ values)

theorem simulates_repetition (aligned : p.Aligned t barrier near q)
    (h : RoundsAlike t near round round') {i j : Nat} (here : near i j)
    (values : List SyntaxTree) :
    Simulates t (fun result other => near result.1 other.1 ∧ other.2 = result.2)
      (p.repetition round i values) (q.repetition round' j values) := by
  obtain ⟨less, enough⟩ := aligned.rounds here
  have run := simulates_iterate h aligned.endless [] _ _ (Nat.succ_le_succ less)
    (enough.imp_right Nat.succ_le_succ) i j here values.reverse
  rw [List.reverse_nil, List.append_nil] at run
  exact run

/-! ## Rules -/

section

variable (he : EvaluatesAlike t near within evaluate evaluate') {i j : Nat} (here : near i j)

include he here

theorem simulates_optional {rule : Rule} (hw : within rule) :
    Simulates t (Meets near) (p.evaluateRule evaluate i (.optional rule))
      (q.evaluateRule evaluate' j (.optional rule)) := by
  apply (he rule hw i j here).bind
  rintro _ _ (_ | next)
  · exact .pure (.some here)
  · exact .pure (.some next)

theorem simulates_pair {left separator right : Rule} (hl : within left) (hs : within separator)
    (hr : within right) :
    Simulates t (Meets near) (p.evaluateRule evaluate i (.pair left separator right))
      (q.evaluateRule evaluate' j (.pair left separator right)) := by
  apply (he left hl i j here).bind
  rintro _ _ (_ | position)
  · apply (he right hr i j here).bind
    rintro _ _ (_ | stop)
    · exact .pure .none
    · exact .pure (.some stop)
  · apply (he separator hs _ _ position).bind
    rintro _ _ (_ | middle)
    · exact .pure (.some position)
    · apply (he right hr _ _ middle).bind
      rintro _ _ (_ | stop)
      · exact .pure .none
      · exact .pure (.some stop)

end

variable (aligned : p.Aligned t barrier near q)

include aligned

theorem simulates_sequence {rules : List Rule} {i j : Nat}
    (h : Simulates t (Abreast near after) (inTurn evaluate rules i) (inTurn evaluate' rules j))
    (error : Option String) :
    Simulates t (Meets after) (p.evaluateRule evaluate i (.sequence rules error))
      (q.evaluateRule evaluate' j (.sequence rules error)) := by
  apply h.bind
  rintro _ _ (stopped | done)
  · exact simulates_noMatch aligned stopped error
  · exact .pure (.some done)

section

variable {i j : Nat} (here : near i j)

include here

/-- A token that both find, or neither. -/
theorem simulates_token {kind : String}
    (next : ∀ token, p.tokens[i]? = some token → token.typeName = kind → after (i + 1) (j + 1))
    (error : Option String) :
    Simulates t (Meets after) (p.evaluateRule evaluate i (.token kind error))
      (q.evaluateRule evaluate' j (.token kind error)) := by
  have same := aligned.terminal here
  simp only [evaluateRule]
  cases first : p.tokens[i]? with
  | none =>
    rw [first, Option.map_none] at same
    rw [Option.map_eq_none_iff.mp same.symm]
    exact simulates_noMatch aligned here error
  | some token =>
    rw [first, Option.map_some] at same
    obtain ⟨token', second, agree⟩ := Option.map_eq_some_iff.mp same.symm
    obtain ⟨named, valued⟩ := Prod.mk.inj agree
    rw [second]
    dsimp only
    rw [named, valued]
    by_cases found : token.typeName = kind
    · rw [if_pos found, if_pos found]
      exact .pure (.some (next token first found))
    · rw [if_neg found, if_neg found]
      exact simulates_noMatch aligned here error

theorem simulates_reference {name : String}
    (h : ∀ chain rule, p.table.resolve name = .ok (chain, rule) →
      Simulates t (Meets after) (evaluate i rule) (evaluate' j rule)) :
    Simulates t (Meets after) (p.evaluateRule evaluate i (.reference name))
      (q.evaluateRule evaluate' j (.reference name)) := by
  simp only [evaluateRule, aligned.table]
  apply (simulates_lift aligned here _).bind
  rintro ⟨chain, rule⟩ _ ⟨rfl, resolved⟩
  exact (h chain rule resolved).opening chain chain

theorem simulates_choice {alternatives : List (String × Rule)}
    (h : ∀ alternative ∈ alternatives, Simulates t (Meets after) (evaluate i alternative.2)
      (evaluate' j alternative.2)) (error : Option String) :
    Simulates t (Meets after) (p.evaluateRule evaluate i (.choice alternatives error))
      (q.evaluateRule evaluate' j (.choice alternatives error)) := by
  apply (simulates_firstOf h).bind
  rintro _ _ (_ | next)
  · exact simulates_noMatch aligned here error
  · exact .pure (.some next)

variable (he : EvaluatesAlike t near within evaluate evaluate')

include he

theorem simulates_filter {rule : Rule} (hw : within rule) (name : String) :
    Simulates t (Meets near) (p.evaluateRule evaluate i (.filter name rule))
      (q.evaluateRule evaluate' j (.filter name rule)) := by
  apply (he rule hw i j here).bind
  rintro _ _ (_ | next)
  · exact .pure .none
  · dsimp only
    split
    · exact simulates_fail aligned here _
    · apply (simulates_lift aligned here _).bind
      rintro (_ | tree) _ ⟨rfl, -⟩
      · exact .pure .none
      · exact .pure (.some next)

theorem simulates_many {rule : Rule} (hw : within rule) :
    Simulates t (Meets near) (p.evaluateRule evaluate i (.many rule))
      (q.evaluateRule evaluate' j (.many rule)) := by
  apply (simulates_repetition aligned ((RoundsAlike.single he hw).moving aligned) here []).bind
  rintro ⟨_, _⟩ ⟨_, _⟩ ⟨stop, rfl⟩
  exact .pure (.some stop)

theorem simulates_cycle {rules : List Rule} (hw : ∀ rule ∈ rules, within rule) :
    Simulates t (Meets near) (p.evaluateRule evaluate i (.cycle rules))
      (q.evaluateRule evaluate' j (.cycle rules)) := by
  apply (simulates_repetition aligned ((RoundsAlike.together he hw).moving aligned) here []).bind
  rintro ⟨_, _⟩ ⟨_, _⟩ ⟨stop, rfl⟩
  exact .pure (.some stop)

theorem simulates_split {primary secondary : Rule} (hp : within primary) (hs : within secondary)
    (error : Option String) :
    Simulates t (Meets near) (p.evaluateRule evaluate i (.split primary secondary error))
      (q.evaluateRule evaluate' j (.split primary secondary error)) := by
  apply (he primary hp i j here).bind
  rintro _ _ (_ | next)
  · exact simulates_noMatch aligned here error
  · apply (simulates_repetition aligned
      ((RoundsAlike.following he true hs hp).moving aligned) next _).bind
    rintro ⟨_, _⟩ ⟨_, _⟩ ⟨stop, rfl⟩
    exact .pure (.some stop)

theorem simulates_content {separator : Option Rule} {element : Rule}
    (hs : ∀ rule ∈ separator, within rule) (hw : within element) (error : Option String) :
    Simulates t (Meets near) (p.content evaluate separator element error i)
      (q.content evaluate' separator element error j) := by
  cases separator with
  | none =>
    apply (he element hw i j here).bind
    rintro _ _ (_ | next)
    · exact simulates_noMatch aligned here error
    · exact .pure (.some next)
  | some separator =>
    refine (he element hw i j here).bind ?_
    rintro _ _ (_ | next)
    · exact .pure (.some here)
    · refine (simulates_repetition aligned
        (RoundsAlike.following he false (hs separator rfl) hw) next _).bind ?_
      rintro ⟨_, _⟩ ⟨_, _⟩ ⟨stop, rfl⟩
      exact .pure (.some stop)

theorem simulates_delimited {left right element : Rule} {separator : Option Rule}
    (hl : within left) (hr : within right) (hs : ∀ rule ∈ separator, within rule)
    (hw : within element) (error : Option String) :
    Simulates t (Meets near)
      (p.evaluateRule evaluate i (.delimited left right separator element error))
      (q.evaluateRule evaluate' j (.delimited left right separator element error)) := by
  apply (he left hl i j here).bind
  rintro _ _ (_ | opened)
  · exact .pure .none
  · apply (simulates_content aligned opened he hs hw error).bind
    rintro _ _ (_ | position)
    · exact .pure .none
    · apply (he right hr _ _ position).bind
      rintro _ _ (_ | stop)
      · exact simulates_noMatch aligned position error
      · exact .pure (.some stop)

theorem simulates_required {rule : Rule} (hw : within rule) (error : String) :
    Simulates t (Meets near) (p.evaluateRule evaluate i (.required rule error))
      (q.evaluateRule evaluate' j (.required rule error)) := by
  apply (he rule hw i j here).bind
  rintro _ _ (_ | next)
  · exact simulates_failSyntax aligned here error
  · exact .pure (.some next)

end

/-- Where the first parser has no room left, nothing is asked of the second. -/
theorem simulates_ofRule {room room' i j : Nat} {rule : Rule} (enough : room ≤ room')
    (h : ∀ less less', less < room → less ≤ less' →
      Simulates t (Meets after) (p.evaluateRule (p.evaluateWithin less) i rule)
        (q.evaluateRule (q.evaluateWithin less') j rule)) :
    Simulates t (Meets after) (p.evaluateWithin room i rule) (q.evaluateWithin room' j rule) := by
  cases room with
  | zero => exact fun _ _ => .excuse (aligned.deep _) _
  | succ less =>
    obtain ⟨less', rfl⟩ := Nat.exists_eq_succ_of_ne_zero (Nat.ne_zero_of_lt enough)
    exact (h less less' (Nat.lt_succ_self less) (Nat.le_of_succ_le_succ enough)).deeper

variable (closed : Closed p.table barrier within)

include closed

theorem simulates_evaluateRule (he : EvaluatesAlike t near within evaluate evaluate') :
    EvaluatesAlike t near within (p.evaluateRule evaluate) (q.evaluateRule evaluate') := by
  intro rule hw i j here
  have parts : ∀ part ∈ rule.parts, within part := fun part => closed.part hw
  cases rule with
  | reference name =>
    exact simulates_reference aligned here fun chain rule resolved =>
      he rule (closed.reference hw resolved) i j here
  | token kind error =>
    refine simulates_token aligned here (fun token present found => ?_) error
    have free := closed.token hw
    rw [← found] at free
    exact aligned.next here present free
  | filter name rule =>
    exact simulates_filter aligned here he (List.forall_mem_singleton.mp parts) name
  | optional rule => exact simulates_optional he here (List.forall_mem_singleton.mp parts)
  | many rule => exact simulates_many aligned here he (List.forall_mem_singleton.mp parts)
  | cycle rules => exact simulates_cycle aligned here he parts
  | split primary secondary error =>
    obtain ⟨hp, hs⟩ : within primary ∧ within secondary := by simpa [Rule.parts] using parts
    exact simulates_split aligned here he hp hs error
  | sequence rules error =>
    exact simulates_sequence aligned (simulates_allInTurn he parts here) error
  | delimited left right separator element error =>
    obtain ⟨hl, hr, hw, hs⟩ : within left ∧ within right ∧ within element ∧
        ∀ rule ∈ separator, within rule := by simpa [Rule.parts] using parts
    exact simulates_delimited aligned here he hl hr hs hw error
  | choice alternatives error =>
    refine simulates_choice aligned here (fun alternative member => ?_) error
    exact he _ (parts _ (List.mem_map_of_mem member)) i j here
  | required rule error =>
    exact simulates_required aligned here he (List.forall_mem_singleton.mp parts) error
  | pair left separator right =>
    obtain ⟨hl, hs, hr⟩ : within left ∧ within separator ∧ within right := by
      simpa [Rule.parts] using parts
    exact simulates_pair he here hl hs hr

/-- A rule of the class does the same over both streams of tokens, where the second parser has at
least as much room for the rules inside it. -/
theorem simulates_evaluateWithin (room : Nat) :
    ∀ room', room ≤ room' →
      EvaluatesAlike t near within (p.evaluateWithin room) (q.evaluateWithin room') := by
  induction room using Nat.strongRecOn with
  | _ room ih =>
    intro room' enough rule hw i j here
    apply simulates_ofRule aligned enough
    intro less less' shorter enough
    exact simulates_evaluateRule aligned closed (ih less shorter less' enough) rule hw i j here

/-- A rule that ends with a barrier does the same over both streams of tokens, whatever comes after
the barrier. -/
theorem simulates_closing {rule : Rule} (h : Closing p.table within rule) :
    ∀ room room', room ≤ room' → ∀ i j, near i j →
      Simulates t (Meets (Past near)) (p.evaluateWithin room i rule)
        (q.evaluateWithin room' j rule) := by
  induction h with
  | inner hw =>
    intro room room' enough i j here
    apply (simulates_evaluateWithin aligned closed room room' enough _ hw i j here).mono
    intro _ _ meets
    exact meets.mono fun _ _ => .inl
  | token kind error =>
    intro room room' enough i j here
    have past : Past near (i + 1) (j + 1) := .inr ⟨i, j, here, rfl, rfl⟩
    apply simulates_ofRule aligned enough
    intro less less' _ _
    exact simulates_token aligned here (fun _ _ _ => past) error
  | reference resolved _ ih =>
    intro room room' enough i j here
    apply simulates_ofRule aligned enough
    intro less less' _ enough
    refine simulates_reference aligned here fun chain rule resolved' => ?_
    cases resolved.symm.trans resolved'
    exact ih less less' enough i j here
  | @sequence rules last error hw _ ih =>
    intro room room' enough i j here
    apply simulates_ofRule aligned enough
    intro less less' _ enough
    have inner := simulates_evaluateWithin aligned closed less less' enough
    refine simulates_sequence aligned (simulates_inTurn inner hw ?_ i j here) error
    intro k l there
    apply (ih less less' enough k l there).bind
    rintro _ _ (_ | past)
    · exact .pure (.stopped there)
    · exact .pure (.done past)
  | choice _ ih =>
    intro room room' enough i j here
    apply simulates_ofRule aligned enough
    intro less less' _ enough
    refine simulates_choice aligned here (fun alternative member => ?_) _
    exact ih alternative member less less' enough i j here

end Parser

end PseudoLang.Grammar
