import PseudoLang.Proofs.Grammar.Succession

/-!
The ways to a syntax error. A rule tries the rules inside it one after the other: it comes to one of
them after others have matched or not (`Rule.Tries`), and where one does not match that has to, it
fails with the message that it carries (`Rule.Fails`). So an evaluation comes from rule to rule, and
opens references on the way, until it has come to a rule that fails (`Raises`); that is not before
the cursor where it has started and not past the tokens (`Raises.bounds`).
-/

namespace PseudoLang.Grammar

namespace Rule

/-! ## The order in which rules are tried -/

/-- Several rounds of the same rules. -/
def rounds (n : Nat) (rules : List Rule) : List Rule := (List.replicate n rules).flatten

theorem rounds_succ (n : Nat) (rules : List Rule) :
    rounds (n + 1) rules = rounds n rules ++ rules := by
  rw [rounds, rounds, List.replicate_succ', List.flatten_append, List.flatten_singleton]

theorem rounds_succ' (n : Nat) (rules : List Rule) :
    rounds (n + 1) rules = rules ++ rounds n rules := rfl

theorem rounds_pair (n : Nat) (first second : Rule) :
    rounds n [first, second] ++ [first] ++ [second] = rounds (n + 1) [first, second] := by
  rw [rounds_succ, List.append_assoc, List.singleton_append]

theorem rounds_rotate (n : Nat) (first second : Rule) :
    rounds n [first, second] ++ [first] = first :: rounds n [second, first] := by
  induction n with
  | zero => rfl
  | succ n ih =>
    rw [rounds_succ', rounds_succ', List.append_assoc, ih]
    rfl

/-- The rules between two delimiters that have matched one after the other, and the sequences of
rules that do not match after them. -/
inductive Encloses (element : Rule) : Option Rule → List Rule → List (List Rule) → Prop
  | one : Encloses element none [element] []
  | empty {separator : Rule} : Encloses element (some separator) [] [[element]]
  | list {separator : Rule} (n : Nat) :
    Encloses element (some separator) (rounds n [element, separator] ++ [element])
      [[separator, element]]

/-- A rule comes to trying another one inside it after some rules have matched one after the other,
and some sequences of rules have not matched from there. -/
inductive Tries : Rule → List Rule → List (List Rule) → Rule → Prop
  | filter {name : String} {rule : Rule} : Tries (.filter name rule) [] [] rule
  | optional {rule : Rule} : Tries (.optional rule) [] [] rule
  | many {rule : Rule} (n : Nat) : Tries (.many rule) (rounds n [rule]) [] rule
  | cycle {before after : List Rule} {rule : Rule} (n : Nat) :
    Tries (.cycle (before ++ rule :: after)) (rounds n (before ++ rule :: after) ++ before) [] rule
  | primary {primary secondary : Rule} {error : Option String} (n : Nat) :
    Tries (.split primary secondary error) (rounds n [primary, secondary]) [] primary
  | secondary {primary secondary : Rule} {error : Option String} (n : Nat) :
    Tries (.split primary secondary error) (rounds n [primary, secondary] ++ [primary]) [] secondary
  | sequence {before after : List Rule} {rule : Rule} {error : Option String} :
    Tries (.sequence (before ++ rule :: after) error) before [] rule
  | left {left right element : Rule} {separator : Option Rule} {error : Option String} :
    Tries (.delimited left right separator element error) [] [] left
  | one {left right element : Rule} {error : Option String} :
    Tries (.delimited left right none element error) [left] [] element
  | element {left right separator element : Rule} {error : Option String} (n : Nat) :
    Tries (.delimited left right (some separator) element error)
      (left :: rounds n [element, separator]) [] element
  | separator {left right separator element : Rule} {error : Option String} (n : Nat) :
    Tries (.delimited left right (some separator) element error)
      (left :: (rounds n [element, separator] ++ [element])) [] separator
  | right {left right element : Rule} {separator : Option Rule} {error : Option String}
    {matched : List Rule} {missed : List (List Rule)} :
    Encloses element separator matched missed →
    Tries (.delimited left right separator element error) (left :: matched) missed right
  | choice {before after : List (String × Rule)} {tag : String} {rule : Rule}
    {error : Option String} :
    Tries (.choice (before ++ (tag, rule) :: after) error) []
      (before.map fun alternative => [alternative.2]) rule
  | required {rule : Rule} {error : String} : Tries (.required rule error) [] [] rule
  | pairLeft {left separator right : Rule} : Tries (.pair left separator right) [] [] left
  | pairSeparator {left separator right : Rule} :
    Tries (.pair left separator right) [left] [] separator
  | pairRight {left separator right : Rule} :
    Tries (.pair left separator right) [left, separator] [] right
  | rightAlone {left separator right : Rule} : Tries (.pair left separator right) [] [[left]] right

/-- A rule fails with its message after some of the rules inside it have matched one after the
other, where some sequences of rules do not match from there. -/
inductive Fails (message : String) : Rule → List Rule → List (List Rule) → Prop
  | split {primary secondary : Rule} :
    Fails message (.split primary secondary (some message)) [] [[primary]]
  | sequence {before after : List Rule} {rule : Rule} :
    Fails message (.sequence (before ++ rule :: after) (some message)) before [[rule]]
  | element {left right element : Rule} :
    Fails message (.delimited left right none element (some message)) [left] [[element]]
  | right {left right element : Rule} {separator : Option Rule} {matched : List Rule}
    {missed : List (List Rule)} :
    Encloses element separator matched missed →
    Fails message (.delimited left right separator element (some message)) (left :: matched)
      (missed ++ [[right]])
  | choice {alternatives : List (String × Rule)} :
    Fails message (.choice alternatives (some message)) []
      (alternatives.map fun alternative => [alternative.2])
  | required {rule : Rule} : Fails message (.required rule message) [] [[rule]]

end Rule

open Parse

namespace Parser

/-! ## The way to a failure -/

section

variable (p : Parser) (room : Nat)

/-- Rules match one after the other, from one cursor to another. -/
inductive Passes : List Rule → Nat → Nat → Prop
  | nil (cursor : Nat) : Passes [] cursor cursor
  | cons {rule : Rule} {rules : List Rule} {cursor middle next : Nat} {tree : SyntaxTree} :
    Returns (some (middle, tree)) (p.evaluateWithin room cursor rule) →
    Passes rules middle next → Passes (rule :: rules) cursor next

/-- Rules do not match one after the other: there is one that does not where it would have to. -/
def Misses (rules : List Rule) (cursor : Nat) : Prop :=
  ∃ before rule after stop, rules = before ++ rule :: after ∧ p.Passes room before cursor stop ∧
    Returns none (p.evaluateWithin room stop rule)

/-- Some rules match up to a cursor, and some sequences of rules do not match from there. -/
structure Comes (matched : List Rule) (missed : List (List Rule)) (cursor next : Nat) : Prop where
  passes : p.Passes room matched cursor next
  misses : ∀ rules ∈ missed, p.Misses room rules next

/-- The evaluation of a rule at a cursor, with room for so many rules inside each other, comes to a
rule that fails at the cursor `failing` with this message. These are the names of the references
that are open there, outermost first, with all the names of a chain of aliases. -/
inductive Raises (message : String) (failing : Nat) : Nat → Rule → Nat → List String → Prop
  | token {room : Nat} {kind : String} :
    (∀ token, p.tokens[failing]? = some token → token.typeName ≠ kind) →
    Raises message failing (room + 1) (.token kind (some message)) failing []
  | fails {room cursor : Nat} {rule : Rule} {matched : List Rule} {missed : List (List Rule)} :
    rule.Fails message matched missed → p.Comes room matched missed cursor failing →
    Raises message failing (room + 1) rule cursor []
  | tries {room cursor next : Nat} {rule part : Rule} {matched : List Rule}
    {missed : List (List Rule)} {opened : List String} :
    rule.Tries matched missed part → p.Comes room matched missed cursor next →
    Raises message failing room part next opened →
    Raises message failing (room + 1) rule cursor opened
  | reference {room cursor : Nat} {name : String} {chain opened : List String} {rule : Rule} :
    p.table.Leads name chain rule → Raises message failing room rule cursor opened →
    Raises message failing (room + 1) (.reference name) cursor (chain ++ opened)

end

variable {p : Parser} {room cursor next : Nat}

theorem Passes.append {rules more : List Rule} {middle : Nat}
    (h : p.Passes room rules cursor middle) (hm : p.Passes room more middle next) :
    p.Passes room (rules ++ more) cursor next := by
  induction h with
  | nil => exact hm
  | cons matched _ ih => exact .cons matched (ih hm)

/-- Rules that match go forward, and not past the tokens. -/
theorem Passes.bounds {rules : List Rule} (h : p.Passes room rules cursor next) :
    cursor ≤ next ∧ next ≤ max cursor p.tokens.size := by
  induction h with
  | nil cursor => exact ⟨Nat.le_refl _, Nat.le_max_left _ _⟩
  | @cons rule rules cursor middle next tree matched _ ih =>
    have derived := derives_of_evaluateWithin p room cursor rule .initial
    rw [matched.run] at derived
    obtain ⟨_, spans, -⟩ := derived middle tree rfl
    have forward := spans.forward
    have inside := spans.inside
    omega

/-- A failure is not before the rule that has come to it, and not past the tokens. -/
theorem Raises.bounds {message : String} {failing : Nat} {rule : Rule} {opened : List String}
    (h : p.Raises message failing room rule cursor opened) :
    cursor ≤ failing ∧ failing ≤ max cursor p.tokens.size := by
  induction h with
  | token => exact ⟨Nat.le_refl _, Nat.le_max_left _ _⟩
  | fails _ comes => exact comes.passes.bounds
  | tries _ comes _ ih =>
    have := comes.passes.bounds
    omega
  | reference _ _ ih => exact ih

theorem comes_start (p : Parser) (room cursor : Nat) : p.Comes room [] [] cursor cursor :=
  ⟨.nil cursor, nofun⟩

theorem Comes.matched {matched : List Rule} {missed : List (List Rule)} {part : Rule} {stop : Nat}
    {tree : SyntaxTree} (h : p.Comes room matched missed cursor next)
    (hr : Returns (some (stop, tree)) (p.evaluateWithin room next part)) :
    p.Comes room (matched ++ [part]) [] cursor stop :=
  ⟨h.passes.append (.cons hr (.nil stop)), nofun⟩

theorem Comes.missed {matched : List Rule} {missed : List (List Rule)} {rules : List Rule}
    (h : p.Comes room matched missed cursor next) (hm : p.Misses room rules next) :
    p.Comes room matched (missed ++ [rules]) cursor next :=
  ⟨h.passes, List.forall_mem_append.mpr ⟨h.misses, List.forall_mem_singleton.mpr hm⟩⟩

theorem misses_of_returns {rule : Rule} (h : Returns none (p.evaluateWithin room cursor rule))
    (after : List Rule) : p.Misses room (rule :: after) cursor :=
  ⟨[], rule, after, cursor, rfl, .nil cursor, h⟩

end Parser

end PseudoLang.Grammar
