import PseudoLang.Proofs.Token.Writing

/-!
Blank lines and comment lines. After a line break outside a literal the rest of a source is read in
the same way wherever it stands (`moves_finish`), and a line without tokens comes back to the same
state (`finish_blankLine`), so that such a line only moves what follows it (`tokenize_blankLine`).
-/

namespace PseudoLang

open Text (byteCount byteCount_append)

/-! ## Moving what has been read -/

/-- A text of `size` bytes put into a source, from the byte `place` on. -/
structure Insertion where
  file : String
  place : Nat
  size : Nat

namespace Insertion

/-- Where an offset is after the insertion. -/
def move (insertion : Insertion) (offset : Nat) : Nat :=
  if offset < insertion.place then offset else offset + insertion.size

/-- A position in a source of `limit` bytes, and the same one after the insertion. -/
def Moves (insertion : Insertion) (limit : Nat) (position moved : Position) : Prop :=
  ∃ offset ≤ limit, position = ⟨offset.toUInt32, insertion.file⟩ ∧
    moved = ⟨(insertion.move offset).toUInt32, insertion.file⟩

/-- A token and the same one after the insertion. -/
structure MovesToken (insertion : Insertion) (limit : Nat) (token moved : Token) : Prop where
  kind : moved.kind = token.kind
  value : moved.value = token.value
  start : insertion.Moves limit token.span.start moved.span.start
  stop : insertion.Moves limit token.span.stop moved.span.stop

/-- The tokens of a source or its error, and the same ones after the insertion. -/
inductive MovesOutcome (insertion : Insertion) (limit : Nat) :
    Except Error (Array Token) → Except Error (Array Token) → Prop
  | tokens {tokens moved : Array Token} :
    List.Forall₂ (insertion.MovesToken limit) tokens.toList moved.toList →
    MovesOutcome insertion limit (.ok tokens) (.ok moved)
  | error {cause : Cause} {position moved : Position} : insertion.Moves limit position moved →
    MovesOutcome insertion limit (.error ⟨cause, position⟩) (.error ⟨cause, moved⟩)

variable {insertion : Insertion} {limit : Nat}

theorem move_before {offset : Nat} (h : offset < insertion.place) :
    insertion.move offset = offset := if_pos h

theorem move_after {offset : Nat} (h : insertion.place ≤ offset) :
    insertion.move offset = offset + insertion.size := if_neg (Nat.not_lt.mpr h)

theorem movesToken_spanning (insertion : Insertion) {start stop : Nat} (ordered : start ≤ stop)
    (inside : stop ≤ limit)
    (kind : Token.Kind) (value : String) :
    insertion.MovesToken limit (.spanning insertion.file start stop kind value)
      (.spanning insertion.file (insertion.move start) (insertion.move stop) kind value) where
  kind := rfl
  value := rfl
  start := ⟨start, ordered.trans inside, rfl, rfl⟩
  stop := ⟨stop, inside, rfl, rfl⟩

/-- The tokens of a lexeme after the insertion are moved with it. -/
theorem movesToken_ofLexeme {offset : Nat} (after : insertion.place ≤ offset) (lexeme : Lexeme)
    (inside : offset + byteCount lexeme.text ≤ limit) (due : List Token.Kind) :
    List.Forall₂ (insertion.MovesToken limit) (Token.ofLexeme insertion.file offset due lexeme)
      (Token.ofLexeme insertion.file (offset + insertion.size) due lexeme) := by
  have moves {stop : Nat} (ordered : offset ≤ stop) (inside : stop ≤ limit) (kind : Token.Kind)
      (value : String) : insertion.MovesToken limit
        (.spanning insertion.file offset stop kind value)
        (.spanning insertion.file (offset + insertion.size) (stop + insertion.size) kind
          value) := by
    have := movesToken_spanning insertion ordered inside kind value
    rwa [move_after after, move_after (after.trans ordered)] at this
  refine List.rel_append ?_ ?_
  · rw [List.forall₂_map_left_iff, List.forall₂_map_right_iff, List.forall₂_same]
    exact fun kind _ => moves (Nat.le_refl _) (by omega) kind _
  · cases lexeme.form with
    | content kind value =>
      have := moves (Nat.le_add_right _ _) inside kind value
      rw [Nat.add_right_comm] at this
      exact .cons this .nil
    | comment | lineBreak | blank => exact .nil

/-- The tokens of a lexeme that ends before the insertion stay where they are. -/
theorem stays_ofLexeme {offset : Nat} {lexeme : Lexeme}
    (before : offset + byteCount lexeme.text < insertion.place) (inside : insertion.place ≤ limit)
    (due : List Token.Kind) : ∀ token ∈ Token.ofLexeme insertion.file offset due lexeme,
      insertion.MovesToken limit token token := by
  have stays {stop : Nat} (ordered : offset ≤ stop) (ends : stop < insertion.place)
      (kind : Token.Kind) (value : String) : insertion.MovesToken limit
        (.spanning insertion.file offset stop kind value)
        (.spanning insertion.file offset stop kind value) := by
    have := movesToken_spanning insertion ordered (ends.le.trans inside) kind value
    rwa [move_before (ordered.trans_lt ends), move_before ends] at this
  refine List.forall_mem_append.mpr ⟨List.forall_mem_map.mpr fun kind _ => ?_, ?_⟩
  · exact stays (Nat.le_refl _) (by omega) kind _
  · cases lexeme.form with
    | content kind value =>
      exact List.forall_mem_singleton.mpr (stays (Nat.le_add_right _ _) before kind value)
    | comment | lineBreak | blank => exact List.forall_mem_nil _

end Insertion

namespace Lexing

variable {vocabulary : Vocabulary} {file : String} {state next : Lexing}

/-- A step fails for the text that is left and the layout, not for the place. -/
theorem step_eq_error {cause : Cause} (h : state.step vocabulary file = .error cause)
    {moved : Lexing} (layout : moved.layout = state.layout) (rest : moved.rest = state.rest) :
    moved.step vocabulary file = .error cause := by
  rw [step] at h ⊢
  rw [layout, rest]
  cases scanned : Lexeme.scan vocabulary state.rest with
  | error =>
    rw [scanned] at h
    exact h
  | ok found =>
    rw [scanned, ok_bind] at h
    rw [ok_bind]
    dsimp only at h ⊢
    cases read : state.layout.read found.1 with
    | error =>
      rw [read] at h
      exact h
    | ok =>
      rw [read] at h
      cases h

/-- What is read after the insertion is moved with the text. -/
theorem moves_finish {insertion : Insertion} {limit : Nat} {moved : Lexing}
    (layout : moved.layout = state.layout) (rest : moved.rest = state.rest)
    (after : insertion.place ≤ state.offset) (offset : moved.offset = state.offset + insertion.size)
    (inside : state.offset + byteCount state.rest = limit)
    (tokens : List.Forall₂ (insertion.MovesToken limit) state.tokens.toList moved.tokens.toList) :
    insertion.MovesOutcome limit (state.finish vocabulary insertion.file)
      (moved.finish vocabulary insertion.file) := by
  induction state using Lexing.induction vocabulary insertion.file generalizing moved with
  | last state empty =>
    rw [finish_of_nil empty, finish_of_nil (rest.trans empty)]
    refine .tokens ?_
    rw [Array.toList_push, Array.toList_push, offset]
    have stop := insertion.movesToken_spanning (Nat.le_refl state.offset)
      (show state.offset ≤ limit by omega) .eof ""
    rw [Insertion.move_after after] at stop
    exact List.rel_append tokens (.cons stop .nil)
  | stuck state cause some taken =>
    rw [finish_of_error some taken,
      finish_of_error (rest ▸ some) (step_eq_error taken layout rest), offset]
    exact .error ⟨state.offset, by omega, rfl, by rw [Insertion.move_after after]⟩
  | step state next taken ih =>
    obtain ⟨lexeme, left, due, settled, scanned, read, rfl⟩ := step_eq_ok.mp taken
    have whole := congrArg byteCount (Lexeme.append_of_scan scanned).2
    rw [byteCount_append] at whole
    have same : moved.step vocabulary insertion.file =
        .ok ⟨moved.offset + byteCount lexeme.text, settled,
          moved.tokens ++ Token.ofLexeme insertion.file moved.offset due lexeme, left⟩ :=
      step_eq_ok.mpr ⟨lexeme, left, due, settled, rest ▸ scanned, layout ▸ read, rfl⟩
    rw [finish_of_step taken, finish_of_step same]
    refine ih rfl rfl ?_ ?_ ?_ ?_
    · exact Nat.le_add_right_of_le after
    · show moved.offset + _ = state.offset + _ + _
      omega
    · show state.offset + byteCount lexeme.text + byteCount left = limit
      omega
    · rw [Array.toList_appendList, Array.toList_appendList, offset]
      exact List.rel_append tokens (Insertion.movesToken_ofLexeme after lexeme (by omega) due)

end Lexing

/-! ## Lines without tokens -/

/-- A line that holds blanks at most, or a comment after them. -/
inductive BlankLine : List Char → Prop
  | line {blanks comment ending : List Char} : (∀ c ∈ blanks, Lexeme.isBlank c = true) →
    (comment = [] ∨ ∃ text, '\n' ∉ text ∧ comment = '/' :: '/' :: text) →
    (ending = ['\n'] ∨ ending = ['\r', '\n']) → BlankLine (blanks ++ (comment ++ ending))

theorem Lexeme.run_exact {form : Form} {p : Char → Bool} {cs more : List Char}
    (each : ∀ c ∈ cs, p c = true) (stops : ∀ c ∈ more.head?, p c = false) :
    run form p (cs ++ more) = (⟨form, cs⟩, more) := by
  rw [run, List.takeWhile_append_of_pos each, List.dropWhile_append_of_pos each]
  cases more with
  | nil => simp
  | cons c more => simp [stops c rfl]

theorem Lexeme.scan_blanks_exact (vocabulary : Vocabulary) {cs more : List Char} (some : cs ≠ [])
    (each : ∀ c ∈ cs, isBlank c = true) (stops : ∀ c ∈ more.head?, isBlank c = false) :
    scan vocabulary (cs ++ more) = .ok (⟨.blank, cs⟩, more) := by
  cases cs with
  | nil => exact absurd rfl some
  | cons c cs =>
    rw [List.cons_append, scan_blank (each c List.mem_cons_self), ← List.cons_append,
      run_exact each stops]

/-- A comment goes on to the end of its line. -/
theorem Lexeme.scan_comment_exact (vocabulary : Vocabulary) {cs more : List Char}
    (inside : '\n' ∉ cs) (stops : ∀ c ∈ more.head?, c = '\n') :
    scan vocabulary ('/' :: '/' :: cs ++ more) = .ok (⟨.comment, '/' :: '/' :: cs⟩, more) := by
  have slashes : ['/', '/'] <+: '/' :: '/' :: cs ++ more := ⟨cs ++ more, rfl⟩
  rw [scan_comment slashes,
    run_exact (comment_line inside) fun c next => by simp [stops c next]]

/-- A lexeme that takes a text to the line break at its end is a run of line breaks. -/
theorem Lexeme.breaks_of_scan {vocabulary : Vocabulary} {cs front : List Char} {lexeme : Lexeme}
    (h : scan vocabulary cs = .ok (lexeme, [])) (ends : cs = front ++ ['\n']) :
    ∀ c ∈ cs, isLineBreak c = true := by
  have whole := (append_of_scan h).2
  rw [List.append_nil] at whole
  have member : '\n' ∈ lexeme.text := by simp [whole, ends]
  cases ended_of_scan h with
  | content form =>
    have last := (writing_of_scan h form).getLast?_ne
    rw [whole, ends] at last
    simp at last
  | comment inside => exact absurd member (by simpa using inside)
  | lineBreak _ each =>
    rw [← whole]
    exact each
  | blank _ each => cases each '\n' member

/-- What a lexeme leaves of a text has the same end. -/
theorem Lexeme.rest_of_scan {vocabulary : Vocabulary} {cs rest front : List Char} {lexeme : Lexeme}
    (h : scan vocabulary cs = .ok (lexeme, rest)) (ends : cs = front ++ ['\n']) (some : rest ≠ []) :
    ∃ before, rest = before ++ ['\n'] := by
  have last : rest.getLast? = Option.some '\n' := by
    have whole := (append_of_scan h).2
    rw [← List.getLast?_append_of_ne_nil lexeme.text some, whole, ends, List.getLast?_concat]
  exact List.getLast?_eq_some_iff.mp last

/-- The layout at the beginning of a line. -/
def Layout.afterBreak (layout : Layout) : Layout :=
  { layout with pending := layout.brackets == 0, blanks := [] }

namespace Lexing

variable {vocabulary : Vocabulary} {file : String} {state next : Lexing} {offset : Nat}
  {layout : Layout} {tokens : Array Token} {cs more : List Char}

theorem finish_of_blanks (each : ∀ c ∈ cs, Lexeme.isBlank c = true)
    (stops : ∀ c ∈ more.head?, Lexeme.isBlank c = false) (fresh : layout.blanks = []) :
    finish vocabulary file ⟨offset, layout, tokens, cs ++ more⟩ =
      finish vocabulary file
        ⟨offset + byteCount cs, { layout with blanks := cs }, tokens, more⟩ := by
  cases cs with
  | nil =>
    obtain ⟨_, _, _, _⟩ := layout
    cases fresh
    rfl
  | cons c cs =>
    have scanned := Lexeme.scan_blanks_exact vocabulary (List.cons_ne_nil c cs) each stops
    rw [finish_of_step (step_eq_ok.mpr ⟨_, _, _, _, scanned, rfl, rfl⟩),
      Token.ofLexeme_of_skipped (by simp), Array.appendList_nil]

theorem finish_of_comment (inside : '\n' ∉ cs) (stops : ∀ c ∈ more.head?, c = '\n') :
    finish vocabulary file ⟨offset, layout, tokens, '/' :: '/' :: cs ++ more⟩ =
      finish vocabulary file ⟨offset + byteCount ('/' :: '/' :: cs), layout, tokens, more⟩ := by
  have scanned := Lexeme.scan_comment_exact vocabulary inside stops
  rw [finish_of_step (step_eq_ok.mpr ⟨_, _, _, _, scanned, rfl, rfl⟩),
    Token.ofLexeme_of_skipped (by simp), Array.appendList_nil]

/-- At the beginning of a line further line breaks change nothing. -/
theorem finish_of_more_breaks (fresh : layout.afterBreak = layout) :
    finish vocabulary file ⟨offset, layout, tokens, cs⟩ =
      finish vocabulary file ⟨offset + byteCount (cs.takeWhile Lexeme.isLineBreak), layout, tokens,
        cs.dropWhile Lexeme.isLineBreak⟩ := by
  by_cases none : cs.takeWhile Lexeme.isLineBreak = []
  · have whole := List.takeWhile_append_dropWhile (p := Lexeme.isLineBreak) (l := cs)
    rw [none, List.nil_append] at whole
    rw [none, whole]
    rfl
  · obtain ⟨stopped, ended⟩ :=
      Lexeme.run_ended (List.append_nil (cs.dropWhile Lexeme.isLineBreak)).symm
    have whole : (⟨offset, layout, tokens, cs⟩ : Lexing).rest =
        cs.takeWhile Lexeme.isLineBreak ++ cs.dropWhile Lexeme.isLineBreak :=
      List.takeWhile_append_dropWhile.symm
    rw [finish_of_breaks whole none fun c => List.mem_takeWhile_imp, stopped, ended,
      List.append_nil]
    exact congrArg (fun layout => finish vocabulary file ⟨_, layout, _, _⟩) fresh

theorem finish_through_breaks (nonempty : cs ≠ []) (breaks : ∀ c ∈ cs, Lexeme.isLineBreak c = true)
    (more : List Char) : finish vocabulary file ⟨offset, layout, tokens, cs ++ more⟩ =
      finish vocabulary file ⟨offset + byteCount cs, layout.afterBreak, tokens, more⟩ := by
  rw [finish_of_breaks rfl nonempty breaks, byteCount_append, ← Nat.add_assoc]
  exact (finish_of_more_breaks rfl).symm

/-- A line without tokens is read with nothing to show for it. -/
theorem finish_blankLine (fresh : layout.afterBreak = layout) (line : BlankLine cs)
    (more : List Char) :
    finish vocabulary file ⟨offset, layout, tokens, cs ++ more⟩ =
      finish vocabulary file ⟨offset + byteCount cs, layout, tokens, more⟩ := by
  obtain @⟨blanks, comment, ending, each, note, ends⟩ := line
  have noBlanks : layout.blanks = [] := by
    rw [← fresh]
    rfl
  have breaks : ending ≠ [] ∧ ∀ c ∈ ending, Lexeme.isLineBreak c = true := by
    obtain rfl | rfl := ends <;> simp [Lexeme.isLineBreak]
  have same : Layout.afterBreak { layout with blanks := blanks } = layout := fresh
  rw [List.append_assoc, List.append_assoc, byteCount_append, byteCount_append]
  obtain rfl | ⟨text, inside, rfl⟩ := note
  · have stops : ∀ c ∈ (ending ++ more).head?, Lexeme.isBlank c = false := by
      obtain rfl | rfl := ends <;> simp [Lexeme.isBlank]
    rw [List.nil_append, finish_of_blanks each stops noBlanks,
      finish_through_breaks breaks.1 breaks.2, same]
    simp [Nat.add_assoc]
  · rw [finish_of_blanks each (by simp [Lexeme.isBlank]) noBlanks]
    obtain rfl | rfl := ends
    · rw [finish_of_comment inside (by simp), finish_through_breaks breaks.1 breaks.2, same]
      simp only [Nat.add_assoc]
    · -- the carriage return is part of the comment
      have carried : '\n' ∉ text ++ ['\r'] := by simp [inside]
      have split : '/' :: '/' :: text ++ (['\r', '\n'] ++ more) =
          '/' :: '/' :: (text ++ ['\r']) ++ (['\n'] ++ more) := by simp
      rw [split, finish_of_comment carried (by simp),
        finish_through_breaks (by simp) (by simp [Lexeme.isLineBreak]), same]
      have bytes : byteCount ('/' :: '/' :: (text ++ ['\r'])) + byteCount ['\n'] =
          byteCount ('/' :: '/' :: text) + byteCount ['\r', '\n'] := by
        rw [← byteCount_append, ← byteCount_append]
        simp
      rw [Nat.add_assoc, Nat.add_assoc, bytes]

/-- A state with more of a source. -/
def followed (state : Lexing) (more : List Char) : Lexing :=
  { state with rest := state.rest ++ more }

/-- A text that ends in a line break and is read without an error is read to the beginning of a
line, whatever follows it, and its tokens are not moved by a text put in there. -/
theorem exists_lineEnd {insertion : Insertion} {limit : Nat} {all : Array Token}
    (done : state.finish vocabulary insertion.file = .ok all) {front : List Char}
    (ends : state.rest = front ++ ['\n'])
    (place : insertion.place = state.offset + byteCount state.rest)
    (inside : insertion.place ≤ limit)
    (kept : ∀ token ∈ state.tokens.toList, insertion.MovesToken limit token token) :
    ∃ (layout : Layout) (tokens : Array Token), layout.afterBreak = layout ∧
      (∀ token ∈ tokens.toList, insertion.MovesToken limit token token) ∧
      ∀ more, (state.followed more).finish vocabulary insertion.file =
        finish vocabulary insertion.file ⟨insertion.place, layout, tokens, more⟩ := by
  induction state using Lexing.induction vocabulary insertion.file generalizing front with
  | last state empty => simp [empty] at ends
  | stuck state cause some taken =>
    rw [finish_of_error some taken] at done
    cases done
  | step state next taken ih =>
    rw [finish_of_step taken] at done
    obtain ⟨lexeme, rest, due, layout, scanned, read, rfl⟩ := step_eq_ok.mp taken
    have length := congrArg byteCount (Lexeme.append_of_scan scanned).2
    rw [byteCount_append] at length
    by_cases whole : rest = []
    · subst whole
      refine ⟨state.layout.afterBreak, state.tokens, rfl, kept, fun more => ?_⟩
      rw [place]
      exact finish_through_breaks (by simp [ends]) (Lexeme.breaks_of_scan scanned ends) more
    · obtain ⟨rest, rfl⟩ := Lexeme.rest_of_scan scanned ends whole
      have positive := byteCount_pos whole
      have later : insertion.place =
          state.offset + byteCount lexeme.text + byteCount (rest ++ ['\n']) := by
        omega
      have stay : ∀ token ∈ (state.tokens ++
          Token.ofLexeme insertion.file state.offset due lexeme).toList,
          insertion.MovesToken limit token token := by
        rw [Array.toList_appendList]
        exact List.forall_mem_append.mpr
          ⟨kept, Insertion.stays_ofLexeme (by omega) inside due⟩
      obtain ⟨layout', tokens, fresh, kept, same⟩ := ih done rfl later stay
      refine ⟨layout', tokens, fresh, kept, fun more => ?_⟩
      have taken' : (state.followed more).step vocabulary insertion.file =
          .ok ⟨state.offset + byteCount lexeme.text, layout,
            state.tokens ++ Token.ofLexeme insertion.file state.offset due lexeme,
            rest ++ ['\n'] ++ more⟩ :=
        step_eq_ok.mpr ⟨_, _, _, _, Lexeme.scan_append scanned (.inl whole), read, rfl⟩
      rw [finish_of_step taken']
      exact same more

end Lexing

/-- A blank line or a comment line after a text that ends in a line break moves what follows it, and
changes nothing else. -/
theorem tokenize_blankLine {vocabulary : Vocabulary} {file before : String}
    {front line : List Char} {tokens : Array Token} (ends : before.toList = front ++ ['\n'])
    (done : tokenize before file vocabulary = .ok tokens) (blank : BlankLine line)
    (after : String) :
    Insertion.MovesOutcome ⟨file, byteCount before.toList, byteCount line⟩
      (byteCount (before ++ after).toList) (tokenize (before ++ after) file vocabulary)
      (tokenize (before ++ String.ofList line ++ after) file vocabulary) := by
  have inside : byteCount before.toList ≤ byteCount (before ++ after).toList := by simp
  obtain ⟨layout, kept, fresh, moves, same⟩ :=
    @Lexing.exists_lineEnd vocabulary (Lexing.start before)
      ⟨file, byteCount before.toList, byteCount line⟩ _ tokens done front ends (Nat.zero_add _).symm
      inside (by simp [Lexing.start])
  have short : Lexing.start (before ++ after) = (Lexing.start before).followed after.toList := by
    simp [Lexing.start, Lexing.followed]
  have long : Lexing.start (before ++ String.ofList line ++ after) =
      (Lexing.start before).followed (line ++ after.toList) := by
    simp [Lexing.start, Lexing.followed]
  dsimp only at same
  rw [Lexing.Reached.start.finish_eq, short, same, Lexing.Reached.start.finish_eq, long, same,
    Lexing.finish_blankLine fresh blank]
  refine Lexing.moves_finish rfl rfl (Nat.le_refl _) rfl ?_ ?_
  · rw [String.toList_append, byteCount_append]
  · exact List.forall₂_same.mpr moves

end PseudoLang
