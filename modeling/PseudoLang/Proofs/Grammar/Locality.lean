import PseudoLang.Proofs.Grammar.Halting
import PseudoLang.Proofs.Grammar.Simulation

/-!
What comes of a rule depends on the tokens from its cursor on and on nothing else: not on the tokens
before the cursor, not on the rules that are open, and on the depth only in that the rule may not
fit into it (`evaluate_local`).
-/

namespace PseudoLang

/-- A cause without what a syntax error tells of the tokens before its place and of the rules that
are open there. -/
def Cause.ahead : Cause → Cause
  | syntaxError message _ after _ => .syntaxError message [] after []
  | cause => cause

namespace Grammar

/-- Ends of two parses that differ in nothing that comes from before their cursors. Errors stand at
one place if tokens are left there. -/
inductive Halt.Alike (placed : Prop) : Halt → Halt → Prop
  | endless : Alike placed .endless .endless
  | error {error other : Error} : error.cause.ahead = other.cause.ahead →
    (placed → error.position = other.position) → Alike placed (.error error) (.error other)

/-- What comes of a rule from two cursors: no match from either of them, or matches of the same
number of tokens with the same tree, or ends that are alike. -/
inductive SameOutcome (placed : Prop) (c c' : Nat) :
    Except Halt Match → Except Halt Match → Prop
  | noMatch : SameOutcome placed c c' (.ok none) (.ok none)
  | found (count : Nat) (tree : SyntaxTree) :
    SameOutcome placed c c' (.ok (some (c + count, tree))) (.ok (some (c' + count, tree)))
  | halted {halt other : Halt} : halt.Alike placed other →
    SameOutcome placed c c' (.error halt) (.error other)

namespace Parser

open Parse

variable {p q : Parser} {c c' i j : Nat}

/-- Cursors with the same tokens ahead, equally far from where the two parses start. -/
structure Ahead (p q : Parser) (c c' i j : Nat) : Prop where
  inside : i ≤ p.tokens.size
  inside' : j ≤ q.tokens.size
  tail : p.tokens.toList.drop i = q.tokens.toList.drop j
  moved : ∃ count, i = c + count ∧ j = c' + count

namespace Ahead

theorem token (h : p.Ahead q c c' i j) : p.tokens[i]? = q.tokens[j]? := by
  rw [← Array.getElem?_toList, ← Array.getElem?_toList, ← List.head?_drop, h.tail, List.head?_drop]

theorem left (h : p.Ahead q c c' i j) : p.tokens.size - i = q.tokens.size - j := by
  have length := congrArg List.length h.tail
  simpa using length

theorem next (h : p.Ahead q c c' i j) {token : Token} (here : p.tokens[i]? = some token) :
    p.Ahead q c c' (i + 1) (j + 1) where
  inside := (Array.getElem?_eq_some_iff.mp here).1
  inside' := (Array.getElem?_eq_some_iff.mp (h.token ▸ here)).1
  tail := by rw [← List.tail_drop, ← List.tail_drop, h.tail]
  moved := by
    obtain ⟨count, rfl, rfl⟩ := h.moved
    exact ⟨count + 1, rfl, rfl⟩

/-- If there are tokens ahead, the last one of them is the last one of both streams. -/
theorem last (h : p.Ahead q c c' i j) (ahead : i < p.tokens.size) :
    p.tokens.back? = q.tokens.back? := by
  have left := h.left
  rw [← Array.getLast?_toList, ← Array.getLast?_toList]
  have one : (p.tokens.toList.drop i).getLast? = p.tokens.toList.getLast? := by
    rw [List.getLast?_drop, if_neg (by simpa using ahead)]
  have other : (q.tokens.toList.drop j).getLast? = q.tokens.toList.getLast? := by
    rw [List.getLast?_drop, if_neg (by rw [Array.length_toList]; omega)]
  rw [← one, ← other, h.tail]

theorem position (h : p.Ahead q c c' i j) (start : p.Ahead q c c' c c')
    (ahead : c < p.tokens.size) : p.position i = q.position j := by
  have nonempty : p.tokens.back? = some p.tokens[p.tokens.size - 1] := by
    rw [Array.back?_eq_getElem?, Array.getElem?_eq_getElem (by omega)]
  have found : (p.tokens[i]?.or p.tokens.back?).isSome := by simp [nonempty]
  obtain ⟨token, here⟩ := Option.isSome_iff_exists.mp found
  have there := here
  rw [h.token, start.last ahead] at there
  rw [Parser.position, Parser.position, here, there]

theorem describe (h : p.Ahead q c c' i j) (count : Nat) :
    p.describe i (min p.tokens.size (i + count)) =
      q.describe j (min q.tokens.size (j + count)) := by
  have left := h.left
  have inside := h.inside
  have inside' := h.inside'
  have same : min p.tokens.size (i + count) - i = min q.tokens.size (j + count) - j := by omega
  rw [Parser.describe, Parser.describe, Array.toList_extract, Array.toList_extract,
    List.extract_eq_take_drop, List.extract_eq_take_drop, h.tail, same]

/-- Syntax errors at the two cursors tell the same of what is ahead. -/
theorem failSyntax (h : p.Ahead q c c' i j) (start : p.Ahead q c c' c c') (message : String)
    (stack stack' : List String) :
    (Halt.error (p.syntaxError stack i message)).Alike (c < p.tokens.size)
      (.error (q.syntaxError stack' j message)) := by
  have here {r : Parser} {k : Nat} (inside : k ≤ r.tokens.size) :
      max (min (k - tokensBefore) (min r.tokens.size (k + tokensAfter)))
        (min k (min r.tokens.size (k + tokensAfter))) = k := by omega
  constructor
  · simp only [Parser.syntaxError, Cause.ahead, here h.inside, here h.inside', h.describe]
  · intro ahead
    simp only [Parser.syntaxError, here h.inside, here h.inside', h.position start ahead]

end Ahead

/-- An evaluation that did not fit is excused; every other end has to be alike. -/
def sameEnd (placed : Prop) : Tolerance where
  excused halt := ∃ position, halt = .error ⟨.nestingTooDeep maxDepth, position⟩
  alike := Halt.Alike placed

theorem aligned_ahead (table : q.table = p.table) (start : p.Ahead q c c' c c') :
    p.Aligned (sameEnd (c < p.tokens.size)) [] (p.Ahead q c c') q where
  table := table
  terminal h := by rw [h.token]
  next h here _ := h.next here
  same h h' := by
    obtain ⟨count, rfl, rfl⟩ := h.moved
    obtain ⟨count', rfl, rfl⟩ := h'.moved
    omega
  rounds h := ⟨Nat.le_of_eq h.left, .inr (Nat.le_of_eq h.left.symm)⟩
  endless := .inr .endless
  fail h _ := .inr (.error rfl fun ahead => h.position start ahead)
  failSyntax h message stack stack' := .inr (h.failSyntax start message stack stack')
  deep position := ⟨position, rfl⟩

/-- Where two streams have the same tokens from two cursors on, a rule comes to the same from both
of them, whatever stands before the cursors and whichever rules are open, unless the first
evaluation is nested too deep. The second one starts no deeper than the first. -/
theorem evaluate_local (table : q.table = p.table) (inside : c ≤ p.tokens.size)
    (inside' : c' ≤ q.tokens.size) (tail : p.tokens.toList.drop c = q.tokens.toList.drop c')
    (rule : Rule) {context context' : Context} (room : context'.depth ≤ context.depth)
    (fits : ∀ position, ((p.evaluate c rule).runFrom context).1 ≠
      .error (.error ⟨.nestingTooDeep maxDepth, position⟩)) :
    SameOutcome (c < p.tokens.size) c c' ((p.evaluate c rule).runFrom context).1
      ((q.evaluate c' rule).runFrom context').1 := by
  have start : p.Ahead q c c' c c' := ⟨inside, inside', tail, 0, rfl, rfl⟩
  have agrees := simulates_evaluateWithin (aligned_ahead table start) (closed_true p.table)
    (maxDepth - context.depth) (maxDepth - context'.depth) (by omega) rule trivial c c' start
    context context'
  rw [← runFrom_evaluate, ← runFrom_evaluate] at agrees
  generalize ((p.evaluate c rule).runFrom context).1 = outcome at agrees fits ⊢
  generalize ((q.evaluate c' rule).runFrom context').1 = outcome' at agrees ⊢
  cases outcome with
  | error halt =>
    have excuse : ¬ (sameEnd (c < p.tokens.size)).excused halt := by
      rintro ⟨position, rfl⟩
      exact fits position rfl
    cases outcome' with
    | error other => exact .halted (agrees.resolve_left excuse)
    | ok result => exact absurd agrees excuse
  | ok result =>
    cases outcome' with
    | error other => exact agrees.elim
    | ok result' =>
      cases agrees with
      | none => exact .noMatch
      | some near =>
        obtain ⟨count, rfl, rfl⟩ := near.moved
        exact .found count _

/-- Names between brackets, which have to be closed. -/
def bracketed : Rule :=
  .delimited (.token "[" none) (.token "]" none) (some (.token "," none)) (.token "name" none)
    (some "expected ']'")

/-- A parser over tokens of the given kinds and values. -/
def parserOf (tokens : List (Token.Kind × String)) : Parser where
  tokens := (tokens.map fun (kind, value) => ⟨kind, value, ⟨0, ""⟩, ⟨0, ""⟩⟩).toArray
  file := ""
  table := []

/-- An open bracket after another token. -/
def inLine : Parser := parserOf [(.keyword, "set"), (.symbol, "["), (.name, "a")]

/-- An open bracket alone. -/
def atStart : Parser := parserOf [(.symbol, "["), (.name, "a")]

theorem evaluate_local_openBracket :
    SameOutcome (1 < inLine.tokens.size) 1 0
      ((inLine.evaluate 1 bracketed).runFrom ⟨["line"], 7⟩).1
      ((atStart.evaluate 0 bracketed).runFrom .initial).1 := by
  have ends : ((inLine.evaluate 1 bracketed).runFrom ⟨["line"], 7⟩).1 = .error (.error
      ⟨.syntaxError "expected ']'" ["set", "[", "a"] [] ["line"], ⟨0, ""⟩⟩) := by
    rfl
  have tail : inLine.tokens.toList.drop 1 = atStart.tokens.toList.drop 0 := rfl
  refine evaluate_local (p := inLine) (q := atStart) rfl (by decide) (by decide) tail bracketed
    (Nat.zero_le 7) ?_
  rw [ends]
  exact nofun

end Parser

end Grammar

end PseudoLang
