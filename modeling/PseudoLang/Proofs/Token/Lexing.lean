import PseudoLang.Proofs.Token.Indentation

/-!
The states that a source is read through, lexeme by lexeme. `Lexing.step` reads one lexeme, and
`Lexing.Reached` holds of the states that it comes to. In each of them the stack of indentations
tells how many blocks the tokens leave open (`Lexing.Sound`).
-/

namespace PseudoLang

open Text (byteCount)

/-- How far a source has been read. -/
structure Lexing where
  offset : Nat
  layout : Layout
  tokens : Array Token
  rest : List Char

namespace Lexing

/-- The state before anything is read. -/
def start (source : String) : Lexing := ⟨0, .initial, #[], source.toList⟩

/-- Reads one lexeme. -/
def step (vocabulary : Vocabulary) (file : String) (state : Lexing) : Except Cause Lexing := do
  let (lexeme, rest) ← Lexeme.scan vocabulary state.rest
  let (due, layout) ← state.layout.read lexeme
  return ⟨state.offset + byteCount lexeme.text, layout,
    state.tokens ++ Token.ofLexeme file state.offset due lexeme, rest⟩

/-- What becomes of the source from here on. -/
def finish (vocabulary : Vocabulary) (file : String) (state : Lexing) :
    Except Error (Array Token) :=
  tokenizeFrom vocabulary file state.offset state.layout state.tokens state.rest

/-- The states that the reading of a source comes to. -/
inductive Reached (vocabulary : Vocabulary) (file source : String) : Lexing → Prop
  | start : Reached vocabulary file source (start source)
  | next {state next : Lexing} : Reached vocabulary file source state →
      state.step vocabulary file = .ok next → Reached vocabulary file source next

section

variable {vocabulary : Vocabulary} {file source : String} {state next : Lexing}

/-! ## Steps -/

theorem step_eq_ok : state.step vocabulary file = .ok next ↔
    ∃ lexeme rest due layout, Lexeme.scan vocabulary state.rest = .ok (lexeme, rest) ∧
      state.layout.read lexeme = .ok (due, layout) ∧
      next = ⟨state.offset + byteCount lexeme.text, layout,
        state.tokens ++ Token.ofLexeme file state.offset due lexeme, rest⟩ := by
  constructor
  · intro h
    obtain ⟨⟨lexeme, rest⟩, scanned, h⟩ := bind_eq_ok.mp h
    obtain ⟨⟨due, layout⟩, read, h⟩ := bind_eq_ok.mp h
    cases h
    exact ⟨lexeme, rest, due, layout, scanned, read, rfl⟩
  · rintro ⟨lexeme, rest, due, layout, scanned, read, rfl⟩
    rw [step, scanned, ok_bind]
    dsimp only
    rw [read, ok_bind]
    rfl

theorem finish_of_nil (h : state.rest = []) : state.finish vocabulary file =
    .ok (state.tokens.push (.spanning file state.offset state.offset .eof "")) := by
  rw [finish, h, tokenizeFrom]

/-- A step does not change what becomes of the source. -/
theorem finish_of_step (h : state.step vocabulary file = .ok next) :
    state.finish vocabulary file = next.finish vocabulary file := by
  obtain ⟨lexeme, rest, due, layout, scanned, read, rfl⟩ := step_eq_ok.mp h
  cases same : state.rest with
  | nil =>
    rw [same] at scanned
    cases scanned
  | cons c tail =>
    rw [same] at scanned
    rw [finish, finish, same, tokenizeFrom]
    split
    · rename_i failed
      rw [scanned] at failed
      cases failed
    · rename_i found
      rw [scanned] at found
      cases found
      rw [read]

/-- A step that fails ends the reading. -/
theorem finish_of_error {cause : Cause} (some : state.rest ≠ [])
    (h : state.step vocabulary file = .error cause) :
    state.finish vocabulary file = .error ⟨cause, state.offset.toUInt32, file⟩ := by
  cases same : state.rest with
  | nil => exact absurd same some
  | cons c tail =>
    rw [step, same] at h
    rw [finish, same, tokenizeFrom]
    split
    · rename_i failed
      rw [failed] at h
      cases h
      rfl
    · rename_i lexeme rest found
      rw [found, ok_bind] at h
      dsimp only at h
      cases read : state.layout.read lexeme with
      | error _ =>
        rw [read] at h
        cases h
        rfl
      | ok _ =>
        rw [read] at h
        cases h

theorem Reached.finish_eq (h : Reached vocabulary file source state) :
    tokenize source file vocabulary = state.finish vocabulary file := by
  induction h with
  | start => rfl
  | next _ step ih => rw [ih, finish_of_step step]

/-- Reading comes to an end: what holds when nothing is left to read, where no step can be taken,
and before a step if it holds after it, holds of every state. -/
@[elab_as_elim]
theorem induction (vocabulary : Vocabulary) (file : String) {motive : Lexing → Prop}
    (last : ∀ state : Lexing, state.rest = [] → motive state)
    (stuck : ∀ (state : Lexing) (cause : Cause), state.rest ≠ [] →
      state.step vocabulary file = .error cause → motive state)
    (step : ∀ state next : Lexing, state.step vocabulary file = .ok next → motive next →
      motive state) (state : Lexing) : motive state := by
  generalize length : state.rest.length = count
  induction count using Nat.strongRecOn generalizing state with
  | _ count ih =>
    by_cases empty : state.rest = []
    · exact last state empty
    · cases taken : state.step vocabulary file with
      | error cause => exact stuck state cause empty taken
      | ok next =>
        obtain ⟨lexeme, rest, due, layout, scanned, -, rfl⟩ := step_eq_ok.mp taken
        have shorter : rest.length < state.rest.length := Lexeme.length_lt_of_scan scanned
        exact step state _ taken (ih rest.length (by omega) _ rfl)

/-- What holds when nothing is left to read, and before a step if it holds after it, holds of every
state that leads to tokens. -/
theorem induction_of_finish {tokens : Array Token} {motive : Lexing → Prop}
    (last : ∀ state : Lexing, state.rest = [] →
      tokens = state.tokens.push (.spanning file state.offset state.offset .eof "") → motive state)
    (step : ∀ state next : Lexing, state.step vocabulary file = .ok next → motive next →
      motive state)
    (h : state.finish vocabulary file = .ok tokens) : motive state := by
  induction state using Lexing.induction vocabulary file with
  | last state empty =>
    rw [finish_of_nil empty] at h
    cases h
    exact last state empty rfl
  | stuck state cause some taken =>
    rw [finish_of_error some taken] at h
    cases h
  | step state next taken ih =>
    rw [finish_of_step taken] at h
    exact step state next taken (ih h)

end

end Lexing

/-! ## Counting tokens -/

/-- How many tokens are of a kind. -/
def countKind (kind : Token.Kind) (tokens : List Token) : Nat := (tokens.map Token.kind).count kind

@[simp] theorem countKind_nil (kind : Token.Kind) : countKind kind [] = 0 := rfl

@[simp] theorem countKind_append (kind : Token.Kind) (tokens more : List Token) :
    countKind kind (tokens ++ more) = countKind kind tokens + countKind kind more := by
  rw [countKind, List.map_append, List.count_append, countKind, countKind]

theorem countKind_take_le (kind : Token.Kind) (tokens : List Token) (n : Nat) :
    countKind kind (tokens.take n) ≤ countKind kind tokens :=
  ((List.take_sublist n tokens).map Token.kind).count_le kind

/-- How many brackets are open after some tokens. A closing bracket too many is ignored. -/
def bracketsAfter (brackets : Nat) (tokens : List Token) : Nat :=
  tokens.foldl (fun count token => Layout.countBracket count token.kind token.value) brackets

@[simp] theorem bracketsAfter_nil (brackets : Nat) : bracketsAfter brackets [] = brackets := rfl

@[simp] theorem bracketsAfter_cons (brackets : Nat) (token : Token) (tokens : List Token) :
    bracketsAfter brackets (token :: tokens) =
      bracketsAfter (Layout.countBracket brackets token.kind token.value) tokens := rfl

@[simp] theorem bracketsAfter_append (brackets : Nat) (tokens more : List Token) :
    bracketsAfter brackets (tokens ++ more) = bracketsAfter (bracketsAfter brackets tokens) more :=
  List.foldl_append

theorem Layout.countBracket_of_mem_kinds {kind : Token.Kind} (h : kind ∈ kinds) (brackets : Nat)
    (value : String) : countBracket brackets kind value = brackets := by
  simp only [kinds, List.mem_cons, List.not_mem_nil, or_false] at h
  obtain rfl | rfl | rfl := h <;> rfl

/-- Layout is no bracket. -/
theorem bracketsAfter_layout {tokens : List Token} (h : ∀ token ∈ tokens, token.kind ∈ Layout.kinds)
    (brackets : Nat) : bracketsAfter brackets tokens = brackets := by
  induction tokens with
  | nil => rfl
  | cons token tokens ih =>
    obtain ⟨here, rest⟩ := List.forall_mem_cons.mp h
    rw [bracketsAfter_cons, Layout.countBracket_of_mem_kinds here, ih rest]

end PseudoLang
