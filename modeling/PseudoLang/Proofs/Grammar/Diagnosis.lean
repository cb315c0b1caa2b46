import PseudoLang.Proofs.Grammar.Commitment
import PseudoLang.Proofs.Grammar.Tracing

/-!
What a syntax error tells of the place where it was raised: the tokens around it, cut out of the
stream by bounds that are never out of range, the position of the token there, and the rules that
are open. Evaluations end with such an error exactly where they come to a rule that fails
(`evaluate_syntaxError_iff`).
-/

namespace PseudoLang.Grammar

/-! ## The tokens around a place -/

/-- The bounds between which the tokens around a place are cut out of a stream: those before it
begin at `first`, those from it on begin at `here` and go up to `last`. -/
structure Window where
  first : Nat
  here : Nat
  last : Nat

/-- The bounds around a cursor in a stream of so many tokens. -/
def Window.around (size cursor : Nat) : Window :=
  let last := min size (cursor + tokensAfter)
  let first := min (cursor - tokensBefore) last
  ⟨first, max first (min cursor last), last⟩

/-- The tokens between the bounds can be cut out. -/
structure Window.InRange (window : Window) (size : Nat) : Prop where
  before : window.first ≤ window.here
  after : window.here ≤ window.last
  last : window.last ≤ size

theorem Window.inRange_around (size cursor : Nat) : (around size cursor).InRange size := by
  unfold around
  constructor <;> dsimp only <;> omega

/-- The place itself is where the cursor is, or at the end. -/
theorem Window.here_around (size cursor : Nat) : (around size cursor).here = min cursor size := by
  unfold around tokensAfter
  dsimp only
  omega

namespace Parser

variable {p : Parser}

/-- What an error tells of the place at a cursor. -/
structure Describes (p : Parser) (failing : Nat) (before after : List String)
    (position : Position) : Prop where
  /-- The tokens are cut out between bounds that are in range. -/
  inRange : (Window.around p.tokens.size failing).InRange p.tokens.size
  cut : before = p.describe (Window.around p.tokens.size failing).first
      (Window.around p.tokens.size failing).here ∧
    after = p.describe (Window.around p.tokens.size failing).here
      (Window.around p.tokens.size failing).last
  /-- The last five tokens before the place. -/
  before : before = ((p.tokens.toList.take failing).drop (failing - 5)).map Token.describe
  /-- The next six tokens. -/
  after : after = ((p.tokens.toList.drop failing).take 6).map Token.describe
  /-- The start of the token there. -/
  inside : ∀ token, p.tokens[failing]? = some token → position = token.span.start
  /-- The start of the last token, if none is left. -/
  past : p.tokens.size ≤ failing → ∀ token, p.tokens.back? = some token →
    position = token.span.start
  /-- The start of the file, if there is no token. -/
  empty : p.tokens = #[] → position = ⟨0, p.file⟩

theorem describe_eq (first last : Nat) :
    p.describe first last = ((p.tokens.toList.take last).drop first).map Token.describe := by
  rw [describe, Array.toList_extract, List.extract_eq_take_drop, List.drop_take]

/-- Cursors past the end count as the end. -/
theorem position_min (cursor : Nat) :
    p.position (min cursor p.tokens.size) = p.position cursor := by
  obtain less | more := Nat.lt_or_ge cursor p.tokens.size
  · rw [Nat.min_eq_left (Nat.le_of_lt less)]
  · rw [Nat.min_eq_right more, position, position, Array.getElem?_eq_none more,
      Array.getElem?_eq_none (Nat.le_refl _)]

/-- Wherever a syntax error is raised, it describes the place. -/
theorem describes_syntaxError (p : Parser) (cursor : Nat) :
    let window := Window.around p.tokens.size cursor
    p.Describes cursor (p.describe window.first window.here) (p.describe window.here window.last)
      (p.position window.here) := by
  have here := Window.here_around p.tokens.size cursor
  have length : p.tokens.toList.length = p.tokens.size := Array.length_toList
  dsimp only
  refine ⟨Window.inRange_around _ _, ⟨rfl, rfl⟩, ?_, ?_, ?_, ?_, ?_⟩ <;>
    simp only [here, describe_eq, position_min]
  · apply congrArg
    have front : p.tokens.toList.take (min cursor p.tokens.size) = p.tokens.toList.take cursor :=
      List.take_eq_take_iff.mpr (by omega)
    rw [front, List.drop_eq_drop_iff, List.length_take, length]
    simp only [Window.around, tokensBefore, tokensAfter]
    omega
  · apply congrArg
    have rest : p.tokens.toList.drop (min cursor p.tokens.size) = p.tokens.toList.drop cursor :=
      List.drop_eq_drop_iff.mpr (by omega)
    rw [List.drop_take, rest, List.take_eq_take_iff, List.length_drop, length]
    simp only [Window.around, tokensAfter]
    omega
  · intro token found
    rw [position, found, Option.some_or]
  · intro ended token found
    rw [position, Array.getElem?_eq_none ended, Option.none_or, found]
  · intro none
    simp [position, none]

/-- There is only one description of a place. -/
theorem Describes.unique {failing : Nat} {before before' after after' : List String}
    {position position' : Position} (h : p.Describes failing before after position)
    (h' : p.Describes failing before' after' position') :
    before' = before ∧ after' = after ∧ position' = position := by
  refine ⟨h'.before.trans h.before.symm, h'.after.trans h.after.symm, ?_⟩
  cases here : p.tokens[failing]? with
  | some token => rw [h.inside token here, h'.inside token here]
  | none =>
    have ended : p.tokens.size ≤ failing := Array.getElem?_eq_none_iff.mp here
    cases last : p.tokens.back? with
    | some token => rw [h.past ended token last, h'.past ended token last]
    | none =>
      have empty : p.tokens = #[] := Array.back?_eq_none_iff.mp last
      rw [h.empty empty, h'.empty empty]

/-- An evaluation from any cursor and context ends with a syntax error exactly if it comes to a rule
that fails. The cursor there is not before the start and not past the tokens (or the start itself,
if that is). The error tells the tokens around this cursor, cut out with bounds that are never out
of range, the position of the token there, and the rules that are open: those from before, and then
the references that have been opened on the way, outermost first, with all their aliases. -/
theorem evaluate_syntaxError_iff {p : Parser} {cursor : Nat} {rule : Rule} {context : Context}
    {message : String} {before after stack : List String} {position : Position} :
    ((p.evaluate cursor rule).runFrom context).1 =
        .error (.error ⟨.syntaxError message before after stack, position⟩) ↔
      ∃ failing opened,
        p.Raises message failing (maxDepth - context.depth) rule cursor opened ∧
        cursor ≤ failing ∧ failing ≤ max cursor p.tokens.size ∧
        p.Describes failing before after position ∧
        stack = context.stack ++ opened := by
  constructor
  · intro ended
    obtain ⟨failing, opened, raises, same⟩ := raises_of_evaluate ended
    obtain ⟨forward, inside⟩ := raises.bounds
    cases same
    exact ⟨failing, opened, raises, forward, inside, describes_syntaxError p failing, rfl⟩
  · rintro ⟨failing, opened, raises, -, -, describes, rfl⟩
    obtain ⟨rfl, rfl, rfl⟩ := (describes_syntaxError p failing).unique describes
    exact evaluate_of_raises raises

/-- A name and a number, which goes by another name as well. -/
def namedNumbers : Table :=
  [("entry", .sequence [.token "name" none, .reference "value"] none),
    ("value", .reference "number"),
    ("number", .required (.token "literal_num" none) "expected a number")]

/-- A parser of names with numbers over two names. -/
def namedNumberParser : Parser where
  tokens := #[⟨.name, "a", ⟨0, ""⟩, ⟨1, ""⟩⟩, ⟨.name, "b", ⟨2, ""⟩, ⟨3, ""⟩⟩,
    ⟨.eof, "", ⟨3, ""⟩, ⟨3, ""⟩⟩]
  file := ""
  table := namedNumbers

theorem evaluate_syntaxError_iff_namedNumber :
    ((namedNumberParser.evaluate 0 (.reference "entry")).runFrom ⟨["file"], 2⟩).1 =
      .error (.error ⟨.syntaxError "expected a number" ["a"] ["b", "EOF"]
        ["file", "entry", "value", "number"], ⟨2, ""⟩⟩) ∧
    ∃ failing opened,
      namedNumberParser.Raises "expected a number" failing 998 (.reference "entry") 0 opened ∧
      0 ≤ failing ∧ failing ≤ 3 ∧
      namedNumberParser.Describes failing ["a"] ["b", "EOF"] ⟨2, ""⟩ ∧
      ["file", "entry", "value", "number"] = ["file"] ++ opened := by
  have ended : ((namedNumberParser.evaluate 0 (.reference "entry")).runFrom ⟨["file"], 2⟩).1 =
      .error (.error ⟨.syntaxError "expected a number" ["a"] ["b", "EOF"]
        ["file", "entry", "value", "number"], ⟨2, ""⟩⟩) := by rfl
  exact ⟨ended, evaluate_syntaxError_iff.mp ended⟩

end Parser

end PseudoLang.Grammar
