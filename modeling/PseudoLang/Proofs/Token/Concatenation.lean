import PseudoLang.Proofs.Token.Arrangement

/-!
Two sources one after the other, with a line break between them. A line break ends every lexeme but
a run of line breaks, so that the first source is read as it is alone; the second one begins on a
fresh line, where only the line break is to be answered (`tokenize_lines`).
-/

namespace PseudoLang

open Text (byteCount)

namespace Lexeme

variable {vocabulary : Vocabulary} {cs rest more : List Char} {lexeme : Lexeme}

/-! ## Lexemes before more of a source -/

/-- White space, which ends every token but a string literal. -/
def isSpace (c : Char) : Bool := isLineBreak c || isBlank c

theorem isSpace_cases {c : Char} (h : isSpace c = true) :
    c = '\n' ∨ c = '\r' ∨ c = ' ' ∨ c = '\t' := by
  simpa [isSpace, isLineBreak, isBlank, or_assoc] using h

/-- White space goes on neither with a word or a number nor with slashes. -/
theorem ends_of_isSpace {c : Char} (h : isSpace c = true) :
    isWordPart c = false ∧ Text.isDigit c = false ∧ c ≠ '.' ∧ c ≠ '/' := by
  obtain rfl | rfl | rfl | rfl := isSpace_cases h <;> decide

/-- Whether a lexeme of a form ends before a character, whatever the lexeme is. -/
def Form.stops : Form → Char → Bool
  | .comment, c => c == '\n'
  | .lineBreak, c => !isLineBreak c
  | .blank, c => !isBlank c
  | .content .., c => isSpace c

theorem dropWhile_more {p : Char → Bool}
    (stops : cs.dropWhile p ≠ [] ∨ ∀ c ∈ more.head?, p c = false) :
    (cs ++ more).dropWhile p = cs.dropWhile p ++ more := by
  rw [List.dropWhile_append]
  by_cases empty : cs.dropWhile p = []
  · have stops := stops.resolve_left (· empty)
    cases more with
    | nil => simp [empty]
    | cons c more => simp [empty, stops c rfl]
  · simp [empty]

theorem takeWhile_more {p : Char → Bool}
    (stops : cs.dropWhile p ≠ [] ∨ ∀ c ∈ more.head?, p c = false) :
    (cs ++ more).takeWhile p = cs.takeWhile p := by
  have whole : (cs ++ more).takeWhile p ++ (cs ++ more).dropWhile p =
      cs.takeWhile p ++ (cs.dropWhile p ++ more) := by
    rw [List.takeWhile_append_dropWhile, ← List.append_assoc, List.takeWhile_append_dropWhile]
  rw [dropWhile_more stops] at whole
  exact List.append_cancel_right whole

theorem run_more {form : Form} {p : Char → Bool} (h : run form p cs = (lexeme, rest))
    (stops : rest ≠ [] ∨ ∀ c ∈ more.head?, p c = false) :
    run form p (cs ++ more) = (lexeme, rest ++ more) := by
  obtain ⟨rfl, rfl⟩ := Prod.mk.inj h
  rw [run, takeWhile_more stops, dropWhile_more stops]

theorem readLiteral_append {value text : List Char} {literal : Literal}
    (h : readLiteral value text cs = .ok literal) (more : List Char) :
    readLiteral value text (cs ++ more) = .ok { literal with rest := literal.rest ++ more } := by
  fun_induction readLiteral value text cs
  case case7 c rest notHex notX ih =>
    have escaped := ih h
    simpa [readLiteral, notX] using escaped
  case case8 c rest quote alone hex escape ih =>
    have plain : c ≠ '\\' := by
      rintro rfl
      cases rest with
      | nil => exact alone rfl rfl
      | cons d rest => exact escape d rest rfl rfl
    have same := ih h
    simpa [readLiteral, quote, plain] using same
  all_goals grind [readLiteral]

theorem spanNumber_more
    (stops : (spanNumber cs).2 ≠ [] ∨ ∀ c ∈ more.head?, Text.isDigit c = false ∧ c ≠ '.') :
    spanNumber (cs ++ more) = ((spanNumber cs).1, (spanNumber cs).2 ++ more) := by
  unfold spanNumber at stops ⊢
  cases same : cs.dropWhile Text.isDigit with
  | nil =>
    rw [same] at stops
    have empty : cs.dropWhile Text.isDigit ≠ [] ∨ ∀ c ∈ more.head?, Text.isDigit c = false :=
      .inr fun c next => (stops.resolve_left (· rfl) c next).1
    rw [takeWhile_more empty, dropWhile_more empty, same]
    cases more with
    | nil => simp
    | cons c more =>
      have point : c ≠ '.' := (stops.resolve_left (· rfl) c rfl).2
      simp [point]
  | cons c rest =>
    have some : cs.dropWhile Text.isDigit ≠ [] ∨ ∀ c ∈ more.head?, Text.isDigit c = false :=
      .inl (by simp [same])
    rw [takeWhile_more some, dropWhile_more some, same]
    by_cases point : c = '.'
    · subst point
      rw [same] at stops
      have stops : rest.dropWhile Text.isDigit ≠ [] ∨ ∀ c ∈ more.head?, Text.isDigit c = false :=
        stops.imp_right fun other c next => (other c next).1
      simp only [List.cons_append, takeWhile_more stops, dropWhile_more stops]
    · simp [point]

theorem scanNumber_more (h : scanNumber cs = .ok (lexeme, rest))
    (stops : rest ≠ [] ∨ ∀ c ∈ more.head?, Text.isDigit c = false ∧ c ≠ '.') :
    scanNumber (cs ++ more) = .ok (lexeme, rest ++ more) := by
  obtain ⟨spanned, point, form⟩ := scanNumber_eq_ok.mp h
  have longer := @spanNumber_more cs more
  rw [spanned] at longer
  refine scanNumber_eq_ok.mpr ⟨longer stops, ?_, form⟩
  cases rest with
  | nil =>
    intro next
    exact (stops.resolve_left (· rfl) '.' next).2 rfl
  | cons c rest => exact point

/-- Whether a text is at the front of another does not depend on what follows that, if the other
is long enough or the text does not go on as it does. -/
theorem isPrefix_more {text : List Char}
    (apart : text.length ≤ cs.length ∨ ∀ c ∈ more.head?, c ∉ text) :
    text <+: cs ++ more ↔ text <+: cs := by
  constructor
  · intro front
    obtain inside | outside := List.prefix_or_prefix_of_prefix front (List.prefix_append cs _)
    · exact inside
    · obtain ⟨tail, rfl⟩ := outside
      rw [List.prefix_append_right_inj] at front
      cases tail with
      | nil => simp
      | cons c tail =>
        obtain ⟨more', rfl, -⟩ := List.cons_prefix_iff.mp front
        obtain short | other := apart
        · rw [List.length_append, List.length_cons] at short
          omega
        · exact absurd (List.mem_append_right cs List.mem_cons_self) (other c rfl)
  · exact fun front => front.trans (List.prefix_append cs _)

theorem scanPunctuation_more (stops : 2 ≤ cs.length ∨ ∀ c ∈ more.head?, isSpace c = true) :
    scanPunctuation (cs ++ more) =
      (scanPunctuation cs).map fun found => (found.1, found.2 ++ more) := by
  have signs : ∀ entry ∈ punctuation,
      entry.1.length ≤ 2 ∧ entry.1.all (!isSpace ·) = true := by decide
  unfold scanPunctuation
  generalize punctuation = entries at signs
  induction entries with
  | nil => rfl
  | cons entry entries ih =>
    obtain ⟨text, kind⟩ := entry
    obtain ⟨⟨short, visible⟩, others⟩ := List.forall_mem_cons.mp signs
    have same : text <+: cs ++ more ↔ text <+: cs := by
      refine isPrefix_more (stops.imp short.trans fun space c next member => ?_)
      have := List.all_eq_true.mp visible c member
      rw [space c next] at this
      cases this
    rw [List.findSome?_cons, List.findSome?_cons, ih others]
    dsimp only
    by_cases front : text <+: cs
    · rw [if_pos front, if_pos (same.mpr front)]
      simp [List.drop_append_of_le_length front.length_le]
    · rw [if_neg front, if_neg (mt same.mp front)]

/-- Two slashes are not made of the last character of a text and what follows it. -/
theorem slashes_of_more (stops : 2 ≤ cs.length ∨ ∀ c ∈ more.head?, c ≠ '/')
    (h : ['/', '/'] <+: cs ++ more) : ['/', '/'] <+: cs := by
  refine (isPrefix_more ?_).mp h
  simpa using stops

/-- Nor is the start of a number. -/
theorem startsNumber_of_more (nonempty : cs ≠ [])
    (stops : 2 ≤ cs.length ∨ ∀ c ∈ more.head?, Text.isDigit c = false)
    (h : startsNumber (cs ++ more) = true) : startsNumber cs = true := by
  match cs, nonempty, h with
  | [c], _, h =>
    by_cases point : c = '.'
    · subst point
      cases more with
      | nil => exact h
      | cons d more =>
        have digit : Text.isDigit d = true := h
        obtain long | other := stops
        · simp at long
        · simp [other d rfl] at digit
    · simpa [startsNumber, point] using h
  | c :: d :: tail, _, h =>
    by_cases point : c = '.'
    · subst point
      exact h
    · simpa [startsNumber, point] using h

/-- More of a source after a text does not change the first lexeme of the text, if the lexeme ends
before the end of the text or does not go on with what follows. -/
theorem scan_append (h : scan vocabulary cs = .ok (lexeme, rest))
    (stops : rest ≠ [] ∨ ∀ c ∈ more.head?, lexeme.form.stops c = true) :
    scan vocabulary (cs ++ more) = .ok (lexeme, rest ++ more) := by
  refine scan_of_scanned ?_
  cases scanned_of_scan h with
  | comment slashes ran =>
    refine .comment (slashes.trans (List.prefix_append cs more)) (run_more ran ?_)
    cases ran
    simpa [Form.stops] using stops
  | lineBreak first ran =>
    refine .lineBreak first (run_more ran ?_)
    cases ran
    simpa [Form.stops] using stops
  | blank first ran =>
    refine .blank first (run_more ran ?_)
    cases ran
    simpa [Form.stops] using stops
  | word start form ran =>
    refine .word start form (run_more ran (stops.imp_right fun space c next => ?_))
    rw [form] at space
    exact (ends_of_isSpace (space c next)).1
  | number starts read =>
    have form := (scanNumber_eq_ok.mp read).2.2
    refine .number (startsNumber_of_isPrefix (List.prefix_append cs more) starts)
      (scanNumber_more read (stops.imp_right fun space c next => ?_))
    rw [form] at space
    have ends := ends_of_isSpace (space c next)
    exact ⟨ends.2.1, ends.2.2.1⟩
  | literal read => exact .literal (readLiteral_append read more)
  | punctuation comment number found =>
    obtain ⟨kind, -, form⟩ := scanPunctuation_eq_some found
    obtain ⟨some, whole⟩ := append_of_scanPunctuation found
    have visible := List.length_pos_iff.mpr some
    have stops : 2 ≤ cs.length ∨ ∀ c ∈ more.head?, isSpace c = true := by
      refine stops.imp (fun further => ?_) fun space => by simpa [form, Form.stops] using space
      have := List.length_pos_iff.mpr further
      rw [← whole, List.length_append]
      omega
    have nonempty : cs ≠ [] := by
      rw [← whole]
      exact List.append_ne_nil_of_left_ne_nil some rest
    refine .punctuation (mt (slashes_of_more (stops.imp_right ?_)) comment) ?_ ?_
    · exact fun space c next => (ends_of_isSpace (space c next)).2.2.2
    · refine eq_false_of_ne_true (mt (startsNumber_of_more nonempty (stops.imp_right ?_)) ?_)
      · exact fun space c next => (ends_of_isSpace (space c next)).2.1
      · exact ne_true_of_eq_false number
    · rw [scanPunctuation_more stops, found]
      rfl

/-- A line break after a text changes nothing about its first lexeme, unless the text is all line
breaks. -/
theorem scan_line (h : scan vocabulary cs = .ok (lexeme, rest))
    (some : ¬ ∀ c ∈ cs, isLineBreak c = true) (more : List Char) :
    scan vocabulary (cs ++ '\n' :: more) = .ok (lexeme, rest ++ '\n' :: more) := by
  refine scan_append h ?_
  have whole := (append_of_scan h).2
  cases ended_of_scan h with
  | content form => exact .inr (by simp [form, Form.stops, isSpace, isLineBreak])
  | comment => exact .inr (by simp [Form.stops])
  | lineBreak _ each =>
    refine .inl ?_
    rintro rfl
    rw [List.append_nil] at whole
    exact some (whole ▸ each)
  | blank => exact .inr (by simp [Form.stops, isBlank])

/-- Line breaks go on with those that come after them. -/
theorem scan_breaks (vocabulary : Vocabulary) (nonempty : cs ≠ [])
    (breaks : ∀ c ∈ cs, isLineBreak c = true) (more : List Char) :
    scan vocabulary (cs ++ more) =
      .ok (⟨.lineBreak, cs ++ more.takeWhile isLineBreak⟩, more.dropWhile isLineBreak) := by
  cases cs with
  | nil => exact absurd rfl nonempty
  | cons c tail =>
    rw [List.cons_append, scan_lineBreak (breaks c List.mem_cons_self), ← List.cons_append, run,
      List.takeWhile_append_of_pos breaks, List.dropWhile_append_of_pos breaks]

end Lexeme

namespace Lexing

variable {vocabulary : Vocabulary} {file : String} {state next : Lexing} {tokens : Array Token}

/-! ## Reading on after a source -/

/-- A state with more of a source after a line break. -/
def continued (state : Lexing) (more : List Char) : Lexing :=
  { state with rest := state.rest ++ '\n' :: more }

/-- A run of line breaks is read at once. -/
theorem finish_of_breaks {cs more : List Char} (same : state.rest = cs ++ more) (nonempty : cs ≠ [])
    (breaks : ∀ c ∈ cs, Lexeme.isLineBreak c = true) :
    state.finish vocabulary file =
      finish vocabulary file ⟨state.offset + byteCount (cs ++ more.takeWhile Lexeme.isLineBreak),
        { state.layout with pending := state.layout.brackets == 0, blanks := [] }, state.tokens,
        more.dropWhile Lexeme.isLineBreak⟩ := by
  have scanned := Lexeme.scan_breaks vocabulary nonempty breaks more
  rw [← same] at scanned
  rw [finish_of_step (step_eq_ok.mpr ⟨_, _, _, _, scanned, rfl, rfl⟩),
    Token.ofLexeme_of_skipped (by simp), Array.appendList_nil]

theorem finish_continued_of_step (h : state.step vocabulary file = .ok next) (more : List Char) :
    (state.continued more).finish vocabulary file =
      (next.continued more).finish vocabulary file := by
  obtain ⟨lexeme, rest, due, layout, scanned, read, rfl⟩ := step_eq_ok.mp h
  by_cases breaks : ∀ c ∈ state.rest, Lexeme.isLineBreak c = true
  · -- the line breaks and the one after them are read at once, or one after the other
    have nonempty : state.rest ≠ [] := by
      intro none
      rw [none] at scanned
      cases scanned
    have alone := Lexeme.scan_breaks vocabulary nonempty breaks []
    rw [List.append_nil, scanned] at alone
    cases alone
    cases read
    have joined : (state.continued more).rest = state.rest ++ '\n' :: more := rfl
    refine (finish_of_breaks joined nonempty breaks).trans (Eq.trans ?_
      (finish_of_breaks (show _ = ['\n'] ++ more from rfl) (by simp)
        (by simp [Lexeme.isLineBreak])).symm)
    rw [Token.ofLexeme_of_skipped (by simp), Array.appendList_nil]
    simp [continued, Lexeme.isLineBreak, Nat.add_assoc]
  · have scanned' := Lexeme.scan_line scanned breaks more
    exact finish_of_step (step_eq_ok.mpr ⟨lexeme, _, due, layout, scanned', read, rfl⟩)

/-- The state in which a source has been read to its end, and from which more of it would be read
if there were any. -/
theorem exists_last (h : state.finish vocabulary file = .ok tokens) (sound : state.Sound) :
    ∃ last : Lexing, last.Sound ∧ last.rest = [] ∧
      tokens = last.tokens.push (.spanning file last.offset last.offset .eof "") ∧
      ∀ more, (state.continued more).finish vocabulary file =
        (last.continued more).finish vocabulary file := by
  refine induction_of_finish (motive := fun state => state.Sound → ∃ last : Lexing, last.Sound ∧
    last.rest = [] ∧ tokens = last.tokens.push (.spanning file last.offset last.offset .eof "") ∧
    ∀ more, (state.continued more).finish vocabulary file =
      (last.continued more).finish vocabulary file) ?_ ?_ h sound
  · intro state empty same sound
    exact ⟨state, sound, empty, same, fun _ => rfl⟩
  · intro state next step ih sound
    obtain ⟨last, found, empty, same, continued⟩ := ih (sound_step sound step)
    refine ⟨last, found, empty, same, fun more => ?_⟩
    rw [finish_continued_of_step step, continued]

end Lexing

/-! ## What a text says in tokens -/

/-- A token without its place. -/
def Token.spelling (token : Token) : Token.Kind × String := (token.kind, token.value)

/-- The tokens of a lexeme and of the layout due before it. -/
def spellings (due : List Token.Kind) (lexeme : Lexeme) : List (Token.Kind × String) :=
  due.map (fun kind => (kind, Token.layoutValue kind)) ++
    match lexeme.form with
    | .content kind value => [(kind, value)]
    | _ => []

theorem map_spelling_ofLexeme (file : String) (offset : Nat) (due : List Token.Kind)
    (lexeme : Lexeme) :
    (Token.ofLexeme file offset due lexeme).map Token.spelling = spellings due lexeme := by
  obtain ⟨form, text⟩ := lexeme
  rw [Token.ofLexeme, List.map_append, List.map_map, spellings]
  cases form <;> rfl

/-- A text comes to these tokens from some layout on, wherever it stands. -/
inductive Spells (vocabulary : Vocabulary) :
    Layout → List Char → List (Token.Kind × String) → Prop
  | stop (layout : Layout) : Spells vocabulary layout [] [(.eof, "")]
  | next {layout after : Layout} {cs rest : List Char} {lexeme : Lexeme} {due : List Token.Kind}
    {more : List (Token.Kind × String)} :
    Lexeme.scan vocabulary cs = .ok (lexeme, rest) → layout.read lexeme = .ok (due, after) →
    Spells vocabulary after rest more → Spells vocabulary layout cs (spellings due lexeme ++ more)

section

variable {vocabulary : Vocabulary} {file : String} {tokens : Array Token} {layout : Layout}
  {cs : List Char} {more : List (Token.Kind × String)}

theorem Lexing.spells_of_finish {state : Lexing} (h : state.finish vocabulary file = .ok tokens) :
    ∃ more, Spells vocabulary state.layout state.rest more ∧
      tokens.toList.map Token.spelling = state.tokens.toList.map Token.spelling ++ more := by
  refine induction_of_finish (motive := fun state => ∃ more,
    Spells vocabulary state.layout state.rest more ∧
      tokens.toList.map Token.spelling = state.tokens.toList.map Token.spelling ++ more) ?_ ?_ h
  · intro state empty same
    rw [empty, same, Array.toList_push, List.map_append]
    exact ⟨_, .stop state.layout, rfl⟩
  · rintro state next step ⟨more, spells, same⟩
    obtain ⟨lexeme, rest, due, layout, scanned, read, rfl⟩ := step_eq_ok.mp step
    refine ⟨_, .next scanned read spells, ?_⟩
    rw [same, Array.toList_appendList, List.map_append, map_spelling_ofLexeme, List.append_assoc]

theorem Spells.finish (h : Spells vocabulary layout cs more) (file : String) :
    ∀ state : Lexing, state.layout = layout → state.rest = cs →
      ∃ tokens, state.finish vocabulary file = .ok tokens ∧
        tokens.toList.map Token.spelling = state.tokens.toList.map Token.spelling ++ more := by
  induction h with
  | stop layout =>
    rintro state rfl empty
    refine ⟨_, Lexing.finish_of_nil empty, ?_⟩
    rw [Array.toList_push, List.map_append]
    rfl
  | next scanned read _ ih =>
    rintro state rfl rfl
    rw [Lexing.finish_of_step (Lexing.step_eq_ok.mpr ⟨_, _, _, _, scanned, read, rfl⟩)]
    obtain ⟨tokens, done, same⟩ := ih ⟨_, _, _, _⟩ rfl rfl
    refine ⟨tokens, done, ?_⟩
    rw [same, Array.toList_appendList, List.map_append, map_spelling_ofLexeme, List.append_assoc]

/-! ## Sources on lines of their own -/

/-- The layout after a line break outside all blocks and brackets. -/
def Layout.fresh : Layout := { Layout.initial with pending := true }

theorem settle_initial : Layout.initial.settle = .ok ([], .initial) := rfl

theorem settle_fresh : Layout.fresh.settle = .ok ([.newline], .initial) := rfl

/-- What comes of a source after a line break begins with a line break of its own, if it has not
begun with one anyway. -/
theorem Spells.afterBreak (h : Spells vocabulary .initial cs more)
    (front : ∀ c ∈ cs.head?, Lexeme.isBlank c = false) :
    ∃ gap, (gap = [] ∨ gap = [(.newline, "\n")]) ∧ Spells vocabulary .fresh cs (gap ++ more) := by
  generalize same : Layout.initial = layout at h
  induction h with
  | stop layout => exact ⟨[], .inl rfl, .stop _⟩
  | @next layout after cs rest lexeme due more scanned read spells ih =>
    subst same
    have whole := (Lexeme.append_of_scan scanned).2
    cases Lexeme.ended_of_scan scanned with
    | @content _ _ kind value form =>
      simp only [Layout.read, form, settle_initial, ok_bind] at read
      cases read
      have read : Layout.fresh.read lexeme = .ok ([.newline],
          { Layout.initial with brackets := Layout.countBracket 0 kind value }) := by
        simp only [Layout.read, form, settle_fresh, ok_bind]
        rfl
      have spells := Spells.next scanned read spells
      exact ⟨_, .inr rfl, spells⟩
    | comment _ line =>
      cases read
      have front : ∀ c ∈ rest.head?, Lexeme.isBlank c = false := by
        intro c first
        rw [line c first]
        decide
      obtain ⟨gap, begins, spells⟩ := ih front rfl
      exact ⟨gap, begins, .next scanned rfl spells⟩
    | lineBreak =>
      cases read
      exact ⟨[], .inl rfl, .next scanned rfl spells⟩
    | @blank text _ some each =>
      obtain ⟨c, tail, rfl⟩ := List.exists_cons_of_ne_nil some
      have visible := front c (by simp [← whole])
      rw [each c List.mem_cons_self] at visible
      cases visible

/-- Where nothing is open at the end of a source, a line break comes to a fresh line. -/
theorem Lexing.finish_continued_of_closed {last : Lexing} (empty : last.rest = [])
    (blocks : last.layout.blocks = []) (brackets : last.layout.brackets = 0) (more : List Char) :
    (last.continued more).finish vocabulary file =
      finish vocabulary file
        ⟨last.offset + byteCount (['\n'] ++ more.takeWhile Lexeme.isLineBreak), .fresh, last.tokens,
          more.dropWhile Lexeme.isLineBreak⟩ := by
  obtain ⟨offset, ⟨_, _, pending, blanks⟩, tokens, _⟩ := last
  cases empty
  cases blocks
  cases brackets
  have line : (continued ⟨offset, ⟨[], 0, pending, blanks⟩, tokens, []⟩ more).rest =
      ['\n'] ++ more := rfl
  exact finish_of_breaks line (List.cons_ne_nil _ _) (by simp [Lexeme.isLineBreak])

/-- The same for a source after a run of line breaks that may go on in it. -/
theorem Spells.afterBreaks (h : Spells vocabulary .initial cs more)
    (front : ∀ c ∈ cs.head?, Lexeme.isBlank c = false) :
    ∃ gap, (gap = [] ∨ gap = [(.newline, "\n")]) ∧
      Spells vocabulary .fresh (cs.dropWhile Lexeme.isLineBreak) (gap ++ more) := by
  cases cs with
  | nil => exact h.afterBreak front
  | cons c tail =>
    by_cases breaks : Lexeme.isLineBreak c = true
    · have run := Lexeme.scan_breaks vocabulary (List.cons_ne_nil c [])
        (List.forall_mem_singleton.mpr breaks) tail
      rw [List.singleton_append] at run
      rw [List.dropWhile_cons_of_pos breaks]
      cases h with
      | next scanned read spells =>
        rw [run] at scanned
        cases scanned
        cases read
        exact ⟨[], .inl rfl, spells⟩
    · rw [List.dropWhile_cons_of_neg breaks]
      exact h.afterBreak front

end

/-! ## Tokens without their places -/

theorem countKind_of_spelling (kind : Token.Kind) (tokens : List Token) :
    countKind kind tokens = ((tokens.map Token.spelling).map Prod.fst).count kind := by
  rw [countKind, List.map_map]
  rfl

theorem bracketsAfter_of_spelling (brackets : Nat) (tokens : List Token) :
    bracketsAfter brackets tokens = (tokens.map Token.spelling).foldl
      (fun count spelling => Layout.countBracket count spelling.1 spelling.2) brackets := by
  rw [bracketsAfter, List.foldl_map]
  rfl

/-- Two sources, the first of which leaves nothing open, have the tokens of both on lines of their
own, with at most one line break between them. -/
theorem tokenize_lines {vocabulary : Vocabulary} {a b file other : String}
    {first second : Array Token} {content : List Token} {stop : Token}
    (ha : tokenize a file vocabulary = .ok first) (hb : tokenize b other vocabulary = .ok second)
    (whole : first.toList = content ++ [stop])
    (blocks : countKind .indent content = countKind .dedent content)
    (brackets : bracketsAfter 0 content = 0)
    (front : ∀ c ∈ b.toList.head?, Lexeme.isBlank c = false) (third : String) :
    ∃ tokens gap, tokenize (a ++ "\n" ++ b) third vocabulary = .ok tokens ∧
      (gap = [] ∨ gap = [(.newline, "\n")]) ∧
      tokens.toList.map Token.spelling =
        content.map Token.spelling ++ gap ++ second.toList.map Token.spelling := by
  -- the first source is read again in the file of both
  obtain ⟨spelled, spells, same⟩ := Lexing.spells_of_finish
    (show (Lexing.start a).finish vocabulary file = .ok first from ha)
  obtain ⟨again, done, same'⟩ := spells.finish third (.start a) rfl rfl
  obtain ⟨last, sound, empty, rfl, continued⟩ := Lexing.exists_last done (Lexing.sound_start a)
  have copy : last.tokens.toList.map Token.spelling = content.map Token.spelling := by
    rw [← same, whole, Array.toList_push, List.map_append, List.map_append] at same'
    exact (List.append_inj' same' rfl).1
  have no_blocks : last.layout.blocks = [] := by
    have counted := sound.blocks
    rw [countKind_of_spelling, countKind_of_spelling, copy, ← countKind_of_spelling,
      ← countKind_of_spelling, blocks, Layout.stack, List.length_append,
      List.length_singleton] at counted
    exact List.eq_nil_of_length_eq_zero (by omega)
  have no_brackets : last.layout.brackets = 0 := by
    rw [sound.brackets, bracketsAfter_of_spelling, copy, ← bracketsAfter_of_spelling, brackets]
  -- then a line break is read, and the second source
  obtain ⟨more, spells, same⟩ := Lexing.spells_of_finish
    (show (Lexing.start b).finish vocabulary other = .ok second from hb)
  obtain ⟨gap, begins, spells⟩ := Spells.afterBreaks spells front
  have joined : Lexing.start (a ++ "\n" ++ b) = (Lexing.start a).continued b.toList := by
    simp [Lexing.start, Lexing.continued]
  have read : tokenize (a ++ "\n" ++ b) third vocabulary = _ :=
    (congrArg (Lexing.finish vocabulary third) joined).trans
      ((continued b.toList).trans (Lexing.finish_continued_of_closed empty no_blocks no_brackets _))
  obtain ⟨tokens, done, rest⟩ := spells.finish third ⟨_, .fresh, last.tokens, _⟩ rfl rfl
  refine ⟨tokens, gap, read.trans done, begins, ?_⟩
  rw [rest, copy, ← List.append_assoc, same]
  rfl

end PseudoLang
