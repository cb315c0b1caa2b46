import PseudoLang.Proofs.Grammar.Halting

/-!
Evaluations come to an end, whatever the table: a rule that matches nothing may be repeated, and
rules may refer to each other without consuming tokens. The one thing that has to be asked for is
that the lists move on (`evaluation_ends`). The other loops stop by themselves where they do not
move on; a list does not, and goes on for ever if neither its separator nor its element consumes
anything (`emptyList_endless`).
-/

namespace PseudoLang.Grammar

open Parse

namespace Rule

def isToken : Rule → Bool
  | token .. => true
  | _ => false

/-- A separated list has a token for its separator. -/
def tokenSeparated : Rule → Bool
  | delimited _ _ separator _ _ => separator.all isToken
  | _ => true

end Rule

namespace Parser

variable {p : Parser} {rule : Rule}

theorem listAdvances_of_tokenSeparated (h : rule.tokenSeparated = true) : p.ListAdvances rule := by
  cases rule with
  | delimited left right separator element error =>
    cases separator with
    | none => trivial
    | some separator =>
      cases separator with
      | token kind error => exact .inl (advances_token kind error)
      | _ => cases h
  | _ => trivial

/-- Every way to end early but going on for ever. -/
def Ends (halt : Halt) : Prop := halt ≠ .endless

theorem permits_ends {within : Rule → Prop} (lists : ∀ rule, within rule → p.ListAdvances rule) :
    p.Permits within Ends where
  tooDeep _ := Halt.noConfusion
  syntaxError _ _ _ := Halt.noConfusion
  unresolved _ _ _ := Halt.noConfusion
  unknownFilter _ _ _ := Halt.noConfusion
  filtered _ _ := Halt.noConfusion
  endless := .inr lists

/-- If the separated lists that a rule reaches move on, every loop inside it takes at most one round
more than there are tokens left, going on only from rounds that have moved on, and its evaluation
comes to an end from every cursor and context. Rules nest no deeper than the context leaves room
for: a match is derived with that many of them inside each other, and without room there is none. -/
theorem evaluation_ends (p : Parser) (rule : Rule)
    (lists : ∀ inner, p.table.Reaches rule inner → p.ListAdvances inner) :
    (∀ inner room round, p.table.Reaches rule inner →
      roundOf? (p.evaluateWithin room) inner = some round →
      ∀ context position values, ∃ taken ≤ p.tokens.size - position + 1,
        Loops round taken context position values.reverse
          ((p.repetition round position values).runFrom context)) ∧
    ∀ cursor context,
      ((p.evaluate cursor rule).runFrom context).1 ≠ .error .endless ∧
      (∀ stop tree, ((p.evaluate cursor rule).runFrom context).1 = .ok (some (stop, tree)) →
        ∃ terminals, Derives p.table (maxDepth - context.depth) rule terminals tree) ∧
      (maxDepth ≤ context.depth → ((p.evaluate cursor rule).runFrom context).1 =
        .error (.error ⟨.nestingTooDeep maxDepth, p.position cursor⟩)) := by
  constructor
  · intro inner room round reached loop context position values
    exact loops_iterate (progresses_roundOf room (lists inner reached) loop) _ context position
      values.reverse (Nat.lt_succ_self _)
  · intro cursor context
    have ends := haltsAs_evaluate (permits_ends lists) (closed_reaches rule) .self cursor context
    refine ⟨?_, ?_, ?_⟩
    · intro endless
      rw [endless] at ends
      exact ends rfl
    · intro stop tree found
      have derived := derives_of_evaluateWithin p (maxDepth - context.depth) cursor rule context
      rw [← runFrom_evaluate, found] at derived
      obtain ⟨terminals, -, inside⟩ := derived stop tree rfl
      exact ⟨terminals, inside⟩
    · intro none_left
      rw [runFrom_evaluate, Nat.sub_eq_zero_of_le none_left]
      rfl

/-- Lists of lists: rules that refer to each other without consuming tokens, and elements that may
be empty. -/
def listsOfLists : Table :=
  [("lists", .many (.delimited (.token "(" none) (.token ")" none) (some (.token "," none))
    (.optional (.reference "lists")) none))]

/-- A parser of such lists over a list with an empty element and an empty list in it. -/
def listParser : Parser where
  tokens := #["(", ",", "(", ")", ")"].map fun sign => ⟨.symbol, sign, ⟨0, ""⟩, ⟨0, ""⟩⟩
  file := ""
  table := listsOfLists

theorem evaluation_ends_listsOfLists :
    (∀ inner, listsOfLists.Reaches (.reference "lists") inner → listParser.ListAdvances inner) ∧
    ((listParser.evaluate 0 (.reference "lists")).runFrom .initial).1 ≠ .error .endless := by
  have checked : ∀ entry ∈ listsOfLists, entry.2.everywhere Rule.tokenSeparated = true := by decide
  have lists : ∀ inner, listsOfLists.Reaches (.reference "lists") inner →
      listParser.ListAdvances inner := by
    intro inner reached
    have here := (closed_everywhere checked).reaches (by decide) reached
    exact listAdvances_of_tokenSeparated (Rule.everywhere_iff.mp here).1
  exact ⟨lists, ((evaluation_ends listParser (.reference "lists") lists).2 0 .initial).1⟩

/-! ## Lists that do not move on -/

/-- No rules one after the other, which match everywhere. -/
def nothing : Rule := .sequence [] none

/-- A list whose separator and element match nothing. -/
def emptyList : Rule := .delimited nothing nothing (some nothing) nothing none

/-- The empty list is found in no tokens again and again: it does not end, and would not with any
number of rounds. -/
theorem emptyList_endless :
    (((⟨#[], "", []⟩ : Parser).evaluate 0 emptyList).runFrom .initial).1 = .error .endless ∧
    ∀ rounds values, ((iterate (following ((⟨#[], "", []⟩ : Parser).evaluateWithin (maxDepth - 1))
      false nothing nothing) rounds 0 values).runFrom ⟨[], 1⟩).1 = .error .endless := by
  constructor
  · rfl
  · intro rounds values
    have stays : (following ((⟨#[], "", []⟩ : Parser).evaluateWithin (maxDepth - 1)) false nothing
        nothing 0).runFrom ⟨[], 1⟩ = (.ok (some (0, [.seq []])), ⟨[], 1⟩) := rfl
    rw [iterate_stalled stays]

end Parser

end PseudoLang.Grammar
