import PseudoLang.Proofs.Token.Lexing

/-!
How the tokens of a source are arranged. In every state the blocks that are open are those that the
tokens leave open, and what stands between two tokens with a text is nothing, a line break, the
beginning of a block, or the ends of blocks and a line break (`layout_of_indentation`).
-/

namespace PseudoLang

namespace Layout

/-- What may stand before a token with a text. -/
def Gap (due : List Token.Kind) : Prop :=
  due = [] ∨ due = [.indent] ∨ ∃ count, due = List.replicate count .dedent ++ [.newline]

/-- What the layout before a token comes to. -/
structure Settles (layout settled : Layout) (due : List Token.Kind) : Prop where
  gap : Gap due
  kinds : ∀ kind ∈ due, kind ∈ kinds
  answered : due ≠ [] → layout.pending = true
  pending : settled.pending = false
  brackets : settled.brackets = layout.brackets
  nested : Nested settled.blocks
  closes : due.count .dedent ≤ layout.blocks.length
  balance : layout.blocks.length + due.count .indent = settled.blocks.length + due.count .dedent

theorem settles {layout settled : Layout} {due : List Token.Kind} (nested : Nested layout.blocks)
    (h : layout.settle = .ok (due, settled)) : layout.Settles settled due := by
  have kinds := kinds_of_settle h
  obtain ⟨pending, rfl, rfl⟩ | ⟨pending, count, entry, rfl, rfl⟩ |
    ⟨pending, longer, rfl, rfl⟩ := settle_cases nested h
  · exact ⟨.inl rfl, kinds, fun some => absurd rfl some, pending, rfl, nested, Nat.zero_le _, rfl⟩
  · have inside : count < layout.stack.length := (List.getElem?_eq_some_iff.mp entry).1
    have length : layout.stack.length = layout.blocks.length + 1 := List.length_append
    have dedents : (List.replicate count Token.Kind.dedent ++ [Token.Kind.newline]).count
        Token.Kind.dedent = count := by
      simp [List.count_append]
    have indents : (List.replicate count Token.Kind.dedent ++ [Token.Kind.newline]).count
        Token.Kind.indent = 0 := by
      simp [List.count_append, List.count_replicate]
    refine ⟨.inr (.inr ⟨count, rfl⟩), kinds, fun _ => pending, rfl, rfl, nested.drop count, ?_, ?_⟩
    · rw [dedents]
      omega
    · rw [dedents, indents, List.length_drop]
      omega
  · refine ⟨.inr (.inl rfl), kinds, fun _ => pending, rfl, rfl, nested.extend longer, ?_, ?_⟩
    · exact Nat.zero_le _
    · rfl

end Layout

/-- A token with a text of its own, neither layout nor the end of the source. -/
def Token.IsContent (token : Token) : Prop := token.kind ∉ Layout.kinds ∧ token.kind ≠ .eof

theorem Vocabulary.isContent_of_writes {vocabulary : Vocabulary} {token : Token}
    (h : vocabulary.Writes token.kind token.value) : token.IsContent := by
  obtain ⟨kind, value, span⟩ := token
  cases kind <;> first | exact h.elim | exact ⟨by simp [Layout.kinds], by simp⟩

namespace Token

variable {file : String} {offset : Nat} {due : List Kind} {lexeme : Lexeme}

/-- The tokens that stand for layout. -/
def ofLayout (file : String) (offset : Nat) (due : List Kind) : List Token :=
  due.map fun kind => spanning file offset offset kind (layoutValue kind)

theorem map_kind_ofLayout (file : String) (offset : Nat) (due : List Kind) :
    (ofLayout file offset due).map kind = due := by
  rw [ofLayout, List.map_map]
  exact List.map_id due

theorem kind_mem_of_ofLayout {kinds : List Kind} (h : ∀ kind ∈ due, kind ∈ kinds) :
    ∀ token ∈ ofLayout file offset due, token.kind ∈ kinds := by
  intro token member
  have := List.mem_map_of_mem (f := Token.kind) member
  rw [map_kind_ofLayout] at this
  exact h _ this

theorem ofLexeme_of_content {kind : Kind} {value : String}
    (form : lexeme.form = .content kind value) :
    ofLexeme file offset due lexeme = ofLayout file offset due ++
      [spanning file offset (offset + Text.byteCount lexeme.text) kind value] := by
  rw [ofLexeme, form]
  rfl

/-- Comments, line breaks and blanks leave no token. -/
theorem ofLexeme_of_skipped (form : ∀ kind value, lexeme.form ≠ .content kind value) :
    ofLexeme file offset [] lexeme = [] := by
  rw [ofLexeme]
  cases same : lexeme.form with
  | content kind value => exact absurd same (form kind value)
  | _ => rfl

end Token

/-! ## What holds in every state -/

namespace Lexing

open Layout (Extends Nested)

/-- What the layout of a state says about its tokens. -/
structure Sound (state : Lexing) : Prop where
  /-- The source itself is at the bottom of the stack. -/
  bottom : state.layout.stack.getLast? = some []
  /-- Each block is inside the next. -/
  nested : state.layout.stack.IsChain Extends
  /-- Line breaks inside brackets are not answered. -/
  pending : state.layout.pending = true → state.layout.brackets = 0
  brackets : state.layout.brackets = bracketsAfter 0 state.tokens.toList
  /-- The blocks on the stack are those that have begun and not ended. -/
  blocks : countKind .indent state.tokens.toList + 1 =
    countKind .dedent state.tokens.toList + state.layout.stack.length
  /-- No more blocks end than have begun. -/
  closed : ∀ n, countKind .dedent (state.tokens.toList.take n) ≤
    countKind .indent (state.tokens.toList.take n)

variable {vocabulary : Vocabulary} {file source : String} {state next : Lexing}

theorem Sound.nested_blocks (h : state.Sound) : Nested state.layout.blocks :=
  List.isChain_iff_pairwise.mp h.nested

theorem sound_start (source : String) : (start source).Sound where
  bottom := rfl
  nested := .singleton _
  pending := nofun
  brackets := rfl
  blocks := rfl
  closed _ := by simp [start]

/-- A token comes after the layout that is due before it. -/
theorem sound_content (h : state.Sound) {settled : Layout} {due : List Token.Kind}
    (settles : state.layout.Settles settled due) {token : Token} (content : token.IsContent)
    {offset offset' : Nat} {rest : List Char} :
    Sound ⟨offset',
      { settled with brackets := Layout.countBracket settled.brackets token.kind token.value },
      state.tokens ++ (Token.ofLayout file offset due ++ [token]), rest⟩ := by
  have layout : ∀ token ∈ Token.ofLayout file offset due, token.kind ∈ Layout.kinds :=
    Token.kind_mem_of_ofLayout settles.kinds
  have count (kind : Token.Kind) (member : kind ∈ Layout.kinds) :
      countKind kind (Token.ofLayout file offset due ++ [token]) = due.count kind := by
    have other : token.kind ≠ kind := by
      rintro rfl
      exact content.1 member
    rw [countKind, List.map_append, Token.map_kind_ofLayout, List.count_append]
    simp [other]
  have dedents := count .dedent (by decide)
  have indents := count .indent (by decide)
  have blocks := h.blocks
  have balance := settles.balance
  have closes := settles.closes
  have length (layout : Layout) : layout.stack.length = layout.blocks.length + 1 :=
    List.length_append
  rw [length] at blocks
  constructor
  case bottom => simp [Layout.stack]
  case nested => exact List.isChain_iff_pairwise.mpr settles.nested
  case pending =>
    intro pending
    rw [settles.pending] at pending
    cases pending
  case brackets =>
    simp only [Array.toList_appendList, bracketsAfter_append, bracketsAfter_layout layout,
      settles.brackets, h.brackets, bracketsAfter_cons, bracketsAfter_nil]
  case blocks =>
    simp only [Array.toList_appendList, countKind_append _ state.tokens.toList, dedents, indents,
      length]
    omega
  case closed =>
    intro n
    have before := h.closed n
    have taken := countKind_take_le .dedent (Token.ofLayout file offset due ++ [token])
      (n - state.tokens.toList.length)
    rw [Array.toList_appendList, List.take_append, countKind_append, countKind_append]
    -- the blocks that end here had begun before
    by_cases inside : n ≤ state.tokens.toList.length
    · rw [Nat.sub_eq_zero_of_le inside, List.take_zero]
      exact before
    · rw [List.take_of_length_le (Nat.le_of_not_le inside)]
      omega

/-- A lexeme that leaves no token leaves the blocks as they are. -/
theorem sound_skipped (h : state.Sound) (layout : Layout)
    (blocks : layout.blocks = state.layout.blocks)
    (brackets : layout.brackets = state.layout.brackets)
    (pending : layout.pending = true → layout.brackets = 0) (offset : Nat) (rest : List Char) :
    Sound ⟨offset, layout, state.tokens, rest⟩ := by
  have stack : layout.stack = state.layout.stack := by rw [Layout.stack, blocks, Layout.stack]
  constructor
  case bottom => rw [stack, h.bottom]
  case nested => exact stack ▸ h.nested
  case pending => exact pending
  case brackets => exact brackets.trans h.brackets
  case blocks => exact stack ▸ h.blocks
  case closed => exact h.closed

theorem sound_step (h : state.Sound) (step : state.step vocabulary file = .ok next) :
    next.Sound := by
  obtain ⟨lexeme, rest, due, layout, scanned, read, rfl⟩ := step_eq_ok.mp step
  obtain ⟨form, rfl, rfl⟩ | ⟨form, rfl, rfl⟩ | ⟨form, rfl, rfl⟩ |
    ⟨kind, value, settled, form, settled_eq, rfl⟩ := Layout.read_cases read
  case inr.inr.inr =>
    have writes := Lexeme.written_of_scan scanned kind value form
    have content : (Token.spanning file state.offset
        (state.offset + Text.byteCount lexeme.text) kind value).IsContent :=
      Vocabulary.isContent_of_writes writes
    rw [Token.ofLexeme_of_content form]
    exact sound_content h (Layout.settles h.nested_blocks settled_eq) content
  all_goals
    rw [Token.ofLexeme_of_skipped (by simp [form]), Array.appendList_nil]
  · exact sound_skipped h _ rfl rfl h.pending _ _
  · have answered : (state.layout.brackets == 0) = true → state.layout.brackets = 0 := by simp
    exact sound_skipped h { state.layout with pending := state.layout.brackets == 0, blanks := [] }
      rfl rfl answered _ _
  · exact sound_skipped h { state.layout with blanks := lexeme.text } rfl rfl h.pending _ _

theorem Reached.sound (h : Reached vocabulary file source state) : state.Sound := by
  induction h with
  | start => exact sound_start source
  | next _ step ih => exact sound_step ih step

/-! ## Lines -/

/-- What a token at the beginning of a line does, where `w` is the indentation of the line. -/
structure AnswersLine (vocabulary : Vocabulary) (file : String) (state : Lexing) (lexeme : Lexeme)
    (rest : List Char) (w : List Char) : Prop where
  /-- It goes back to the entry of the stack that is its indentation. -/
  back : ∀ count, state.layout.stack[count]? = some w → ∃ next,
    state.step vocabulary file = .ok next ∧ next.rest = rest ∧
      next.layout.stack = state.layout.stack.drop count ∧
      next.tokens = state.tokens ++
        Token.ofLexeme file state.offset (List.replicate count .dedent ++ [.newline]) lexeme
  /-- It opens a block if its indentation extends that of the innermost one. -/
  extend : Extends w (Layout.innermost state.layout.blocks) → ∃ next,
    state.step vocabulary file = .ok next ∧ next.rest = rest ∧
      next.layout.stack = w :: state.layout.stack ∧
      next.tokens = state.tokens ++ Token.ofLexeme file state.offset [.indent] lexeme
  /-- Nothing else is possible. -/
  fails : ∀ cause, state.step vocabulary file = .error cause ↔
    (w ∉ state.layout.stack ∧ ¬ Extends w (Layout.innermost state.layout.blocks)) ∧
      cause = .incompatibleDedent (String.ofList (Layout.innermost state.layout.blocks))
        (String.ofList w)
  /-- The error is reported at the token. -/
  reported : ∀ cause, state.step vocabulary file = .error cause →
    state.finish vocabulary file = .error ⟨cause, state.offset.toUInt32, file⟩

theorem step_of_settle (file : String) {lexeme : Lexeme} {rest : List Char} {kind : Token.Kind}
    {value : String} (scanned : Lexeme.scan vocabulary state.rest = .ok (lexeme, rest))
    (form : lexeme.form = .content kind value) : state.step vocabulary file =
      state.layout.settle >>= fun (due, settled) =>
        .ok ⟨state.offset + Text.byteCount lexeme.text,
          { settled with brackets := Layout.countBracket settled.brackets kind value },
          state.tokens ++ Token.ofLexeme file state.offset due lexeme, rest⟩ := by
  rw [step, scanned, ok_bind]
  dsimp only
  rw [Layout.read, form]
  cases state.layout.settle with
  | error cause => rfl
  | ok result => rfl

theorem answersLine (h : state.Sound) {lexeme : Lexeme} {rest : List Char} {kind : Token.Kind}
    {value : String} (scanned : Lexeme.scan vocabulary state.rest = .ok (lexeme, rest))
    (form : lexeme.form = .content kind value) (pending : state.layout.pending = true) :
    state.AnswersLine vocabulary file lexeme rest state.layout.blanks := by
  have step := step_of_settle file scanned form
  have nested := h.nested_blocks
  constructor
  case back =>
    intro count entry
    rw [Layout.settle_back nested pending entry] at step
    have inside : count < state.layout.stack.length := (List.getElem?_eq_some_iff.mp entry).1
    have length : state.layout.stack.length = state.layout.blocks.length + 1 := List.length_append
    refine ⟨_, step, rfl, ?_, rfl⟩
    exact (List.drop_append_of_le_length (by omega)).symm
  case extend =>
    intro longer
    rw [Layout.settle_extend pending longer] at step
    exact ⟨_, step, rfl, rfl, rfl⟩
  case fails =>
    intro cause
    by_cases entry : state.layout.blanks ∈ state.layout.stack
    · obtain ⟨count, found⟩ := List.getElem?_of_mem entry
      rw [step, Layout.settle_back nested pending found]
      simp [ok_bind, entry]
    · by_cases longer : Extends state.layout.blanks (Layout.innermost state.layout.blocks)
      · rw [step, Layout.settle_extend pending longer]
        simp [ok_bind, longer]
      · rw [step, Layout.settle_eq_error pending entry longer, error_bind]
        simp [entry, longer, eq_comm]
  case reported =>
    intro cause failed
    refine finish_of_error ?_ failed
    intro empty
    rw [empty] at scanned
    cases scanned

end Lexing

/-! ## Streams -/

/-- A stream that is read with some brackets open: tokens with a text, each after the layout that is
due before it, and the end of the source. -/
inductive LaidOut : Nat → List Token → Prop
  | stop {brackets : Nat} {token : Token} : token.kind = .eof → LaidOut brackets [token]
  | content {brackets : Nat} {gap : List Token} {token : Token} {rest : List Token} :
      Layout.Gap (gap.map Token.kind) → (∀ token ∈ gap, token.kind ∈ Layout.kinds) →
      (gap ≠ [] → brackets = 0) → token.IsContent →
      LaidOut (Layout.countBracket brackets token.kind token.value) rest →
      LaidOut brackets (gap ++ token :: rest)

/-- Where a stream comes to a token: after one with a text it goes on in the same way, and layout
stands outside brackets, the beginning of a block right before a token with a text. -/
theorem LaidOut.at {brackets : Nat} {tokens : List Token} (h : LaidOut brackets tokens) :
    ∀ {before : List Token} {token : Token} {after : List Token},
      tokens = before ++ token :: after →
      (token.IsContent → LaidOut (bracketsAfter brackets (before ++ [token])) after) ∧
      (token.kind ∈ Layout.kinds → bracketsAfter brackets before = 0 ∧
        (token.kind = .indent → ∃ next more, after = next :: more ∧ next.IsContent)) := by
  induction h with
  | @stop brackets last ends =>
    intro before token after same
    have alone : before = [] ∧ token = last ∧ after = [] := by
      cases before with
      | nil =>
        cases same
        exact ⟨rfl, rfl, rfl⟩
      | cons first before => simp at same
    obtain ⟨rfl, rfl, rfl⟩ := alone
    constructor
    · exact fun content => absurd ends content.2
    · intro layout
      rw [ends] at layout
      exact absurd layout (by decide)
  | @content brackets gap token rest due layout outside content more ih =>
    intro before other after same
    obtain ⟨between, rfl, rests⟩ | ⟨behind, rfl, rests⟩ := List.append_eq_append_iff.mp same
    · -- the token stands after the gap
      have through : bracketsAfter brackets gap = brackets := bracketsAfter_layout layout brackets
      cases between with
      | nil =>
        cases rests
        rw [List.append_nil]
        constructor
        · intro _
          rw [bracketsAfter_append, through]
          exact more
        · exact fun layout => absurd layout content.1
      | cons first between =>
        cases rests
        obtain ⟨goesOn, stands⟩ := ih rfl
        rw [List.append_assoc, List.cons_append, bracketsAfter_append, bracketsAfter_append,
          through, bracketsAfter_cons, bracketsAfter_cons]
        exact ⟨goesOn, stands⟩
    · -- the token stands in the gap
      cases behind with
      | nil =>
        cases rests
        rw [List.append_nil] at layout
        constructor
        · intro _
          rw [bracketsAfter_append, bracketsAfter_layout layout]
          exact more
        · exact fun layout => absurd layout content.1
      | cons first behind =>
        cases rests
        obtain ⟨front, rear⟩ := List.forall_mem_append.mp layout
        obtain ⟨here, -⟩ := List.forall_mem_cons.mp rear
        constructor
        · exact fun content => absurd here content.1
        · intro _
          refine ⟨?_, fun indent => ?_⟩
          · rw [bracketsAfter_layout front, outside (by simp)]
          · have alone : before = [] ∧ behind = [] := by
              rw [List.map_append, List.map_cons, indent] at due
              obtain empty | single | ⟨count, mixed⟩ := due
              · simp at empty
              · simpa [List.append_eq_cons_iff] using single
              · have member : Token.Kind.indent ∈
                    List.replicate count Token.Kind.dedent ++ [Token.Kind.newline] := by
                  rw [← mixed]
                  simp
                simp at member
            obtain ⟨rfl, rfl⟩ := alone
            exact ⟨token, rest, rfl, content⟩

/-- The layout between two tokens with a text is what was due before the second. -/
theorem LaidOut.gap {brackets : Nat} {gap : List Token} {token : Token} {after : List Token}
    (h : LaidOut brackets (gap ++ token :: after)) (content : token.IsContent)
    (layout : ∀ token ∈ gap, token.kind ∈ Layout.kinds) : Layout.Gap (gap.map Token.kind) := by
  generalize same : gap ++ token :: after = tokens at h
  cases h with
  | stop ends =>
    cases gap with
    | nil =>
      cases same
      exact absurd ends content.2
    | cons first gap => simp at same
  | @content _ gap' token' rest due layout' outside content' more =>
    have whole : gap = gap' := by
      obtain ⟨between, rfl, rests⟩ | ⟨behind, rfl, rests⟩ := List.append_eq_append_iff.mp same
      · cases between with
        | nil => rw [List.append_nil]
        | cons first between =>
          cases rests
          exact absurd (layout' token (by simp)) content.1
      · cases behind with
        | nil => rw [List.append_nil]
        | cons first behind =>
          cases rests
          exact absurd (layout token' (by simp)) content'.1
    rw [whole]
    exact due

namespace Lexing

variable {vocabulary : Vocabulary} {file source : String} {state : Lexing} {tokens : Array Token}

theorem laidOut_of_finish (h : state.Sound) (done : state.finish vocabulary file = .ok tokens) :
    ∃ more, tokens.toList = state.tokens.toList ++ more ∧ LaidOut state.layout.brackets more := by
  refine induction_of_finish (motive := fun state => state.Sound → ∃ more,
    tokens.toList = state.tokens.toList ++ more ∧ LaidOut state.layout.brackets more) ?_ ?_ done h
  · intro state empty same _
    exact ⟨_, by rw [same, Array.toList_push], .stop rfl⟩
  · intro state next taken ih h
    obtain ⟨more, same, laid⟩ := ih (sound_step h taken)
    obtain ⟨lexeme, rest, due, layout, scanned, read, rfl⟩ := step_eq_ok.mp taken
    obtain ⟨form, rfl, rfl⟩ | ⟨form, rfl, rfl⟩ | ⟨form, rfl, rfl⟩ |
      ⟨kind, value, settled, form, settled_eq, rfl⟩ := Layout.read_cases read
    case inr.inr.inr =>
      have settles := Layout.settles h.nested_blocks settled_eq
      have content : (Token.spanning file state.offset
          (state.offset + Text.byteCount lexeme.text) kind value).IsContent :=
        Vocabulary.isContent_of_writes (Lexeme.written_of_scan scanned kind value form)
      rw [Token.ofLexeme_of_content form, Array.toList_appendList, List.append_assoc,
        List.append_assoc] at same
      refine ⟨_, same, .content ?_ ?_ ?_ content ?_⟩
      · rw [Token.map_kind_ofLayout]
        exact settles.gap
      · exact Token.kind_mem_of_ofLayout settles.kinds
      · intro some
        have some : due ≠ [] := fun empty => some (by rw [empty]; rfl)
        exact h.pending (settles.answered some)
      · rw [← settles.brackets]
        exact laid
    all_goals
      rw [Token.ofLexeme_of_skipped (by simp [form]), Array.appendList_nil] at same
      exact ⟨more, same, laid⟩

end Lexing

/-- A stream of tokens with its layout in place. -/
structure Arranged (tokens : List Token) : Prop where
  /-- Between two tokens with a text stands nothing, the beginning of a block, or a line break after
  the ends of some blocks. -/
  between : ∀ before left gap right after, tokens = before ++ left :: (gap ++ right :: after) →
    left.IsContent → right.IsContent → (∀ token ∈ gap, token.kind ∈ Layout.kinds) →
    Layout.Gap (gap.map Token.kind)
  /-- There is no layout while a bracket is open. -/
  outside : ∀ before token after, tokens = before ++ token :: after → token.kind ∈ Layout.kinds →
    bracketsAfter 0 before = 0
  /-- Right after the beginning of a block comes a token with a text. -/
  indented : ∀ before token after, tokens = before ++ token :: after → token.kind = .indent →
    ∃ next more, after = next :: more ∧ next.IsContent

theorem LaidOut.arranged {tokens : List Token} (h : LaidOut 0 tokens) : Arranged tokens where
  between _ _ _ _ _ same left right layout := ((h.at same).1 left).gap right layout
  outside _ _ _ same layout := ((h.at same).2 layout).1
  indented _ _ _ same indent := by
    have layout : _ ∈ Layout.kinds := indent ▸ (by decide : Token.Kind.indent ∈ Layout.kinds)
    exact ((h.at same).2 layout).2 indent

theorem arranged_of_tokenize {vocabulary : Vocabulary} {file source : String}
    {tokens : Array Token} (h : tokenize source file vocabulary = .ok tokens) :
    Arranged tokens.toList := by
  have done : (Lexing.start source).finish vocabulary file = .ok tokens := h
  obtain ⟨more, same, laid⟩ := Lexing.laidOut_of_finish (Lexing.sound_start source) done
  rw [same]
  exact laid.arranged

/-- Layout is determined by the stack of indentations: in every state of the reading of a source the
blocks on the stack are those that the tokens leave open, a token at the beginning of a line goes
back to an entry of the stack, extends the innermost one or is an error, and the layout between two
tokens is that of one line break. -/
theorem layout_of_indentation (vocabulary : Vocabulary) (file source : String) :
    (∀ state, Lexing.Reached vocabulary file source state →
      tokenize source file vocabulary = state.finish vocabulary file ∧ state.Sound ∧
      ∀ lexeme rest kind value, Lexeme.scan vocabulary state.rest = .ok (lexeme, rest) →
        lexeme.form = .content kind value → state.layout.pending = true →
        state.AnswersLine vocabulary file lexeme rest state.layout.blanks) ∧
    ∀ tokens, tokenize source file vocabulary = .ok tokens → Arranged tokens.toList := by
  constructor
  · intro state reached
    refine ⟨reached.finish_eq, reached.sound, ?_⟩
    intro lexeme rest kind value scanned form pending
    exact Lexing.answersLine reached.sound scanned form pending
  · exact fun tokens h => arranged_of_tokenize h

/-- A line that goes back over two blocks. -/
def twoBlocks : String := "a\n b\n  c\nd"

theorem layout_of_indentation_twoBlocks : ∃ tokens, tokenize twoBlocks = .ok tokens ∧
    tokens.toList.map Token.kind =
      [.name, .indent, .name, .indent, .name, .dedent, .dedent, .newline, .name, .eof] ∧
    Arranged tokens.toList := by
  have found : (match tokenize twoBlocks with
      | .ok tokens => tokens.toList.map Token.kind ==
        [.name, .indent, .name, .indent, .name, .dedent, .dedent, .newline, .name, .eof]
      | .error _ => false) = true := by decide +kernel
  split at found
  · rename_i tokens h
    exact ⟨tokens, h, by simpa using found, (layout_of_indentation _ _ _).2 tokens h⟩
  · cases found

end PseudoLang
