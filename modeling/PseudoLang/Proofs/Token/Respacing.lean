import PseudoLang.Proofs.Token.BlankLines

/-!
Other white space for the same tokens. Line breaks outside literals may be written as a carriage
return and a line feed, and inside brackets as a blank. A source is followed in both forms at once
(`Spells.rewritten`): outside brackets the lexemes are the same one by one, inside brackets white
space comes to nothing however it falls into lexemes (`Spells.absorb`).
-/

namespace PseudoLang

open Lexeme (isLineBreak isBlank isSpace)

/-! ## Layouts that differ in blanks -/

namespace Layout

/-- Layouts with the same effect on what follows: blanks matter only where a line break is to be
answered. -/
structure Alike (layout other : Layout) : Prop where
  blocks : other.blocks = layout.blocks
  brackets : other.brackets = layout.brackets
  pending : other.pending = layout.pending
  blanks : layout.pending = true → other.blanks = layout.blanks

variable {layout other after : Layout} {due : List Token.Kind}

theorem Alike.refl (layout : Layout) : Alike layout layout := ⟨rfl, rfl, rfl, fun _ => rfl⟩

theorem Alike.trans {third : Layout} (h : Alike layout other) (next : Alike other third) :
    Alike layout third where
  blocks := next.blocks.trans h.blocks
  brackets := next.brackets.trans h.brackets
  pending := next.pending.trans h.pending
  blanks pending := (next.blanks (h.pending.trans pending)).trans (h.blanks pending)

theorem Alike.settle (h : Alike layout other) (settled : layout.settle = .ok (due, after)) :
    ∃ after', other.settle = .ok (due, after') ∧ Alike after after' := by
  cases pending : layout.pending with
  | false =>
    rw [Layout.settle, pending] at settled
    cases settled
    exact ⟨other, by rw [Layout.settle, h.pending, pending]; rfl, h⟩
  | true =>
    have same : other = layout := by
      have blanks := h.blanks pending
      obtain ⟨blocks, brackets, pending, -⟩ := h
      cases layout
      cases other
      simp_all
    exact ⟨after, same ▸ settled, .refl after⟩

theorem Alike.afterBreak (h : Alike layout other) : Alike layout.afterBreak other.afterBreak :=
  ⟨h.blocks, h.brackets, congrArg (· == 0) h.brackets, fun _ => rfl⟩

/-- Layouts that are alike read a lexeme alike. -/
theorem Alike.read (h : Alike layout other) {lexeme : Lexeme}
    (read : layout.read lexeme = .ok (due, after)) :
    ∃ after', other.read lexeme = .ok (due, after') ∧ Alike after after' := by
  obtain ⟨form, rfl, rfl⟩ | ⟨form, rfl, rfl⟩ | ⟨form, rfl, rfl⟩ |
    ⟨kind, value, settled, form, same, rfl⟩ := read_cases read
  · exact ⟨other, by rw [Layout.read, form], h⟩
  · exact ⟨other.afterBreak, by rw [Layout.read, form]; rfl, h.afterBreak⟩
  · exact ⟨{ other with blanks := lexeme.text }, by rw [Layout.read, form], h.blocks, h.brackets,
      h.pending, fun _ => rfl⟩
  · obtain ⟨settled', same', alike⟩ := h.settle same
    refine ⟨{ settled' with brackets := countBracket settled'.brackets kind value }, ?_,
      alike.blocks, congrArg (countBracket · kind value) alike.brackets, alike.pending,
      alike.blanks⟩
    rw [Layout.read, form]
    dsimp only
    rw [same']
    rfl

end Layout

open Layout (Alike)

namespace Spells

variable {vocabulary : Vocabulary} {layout other : Layout} {cs : List Char}
  {more : List (Token.Kind × String)}

theorem congr (h : Spells vocabulary layout cs more) (alike : Alike layout other) :
    Spells vocabulary other cs more := by
  induction h generalizing other with
  | stop layout => exact .stop other
  | next scanned read _ ih =>
    obtain ⟨after', read', alike⟩ := alike.read read
    exact .next scanned read' (ih alike)

/-! ## White space that comes to nothing -/

/-- A lexeme that leaves no token comes to nothing. -/
theorem skip {after : Layout} {rest : List Char} {lexeme : Lexeme}
    (scanned : Lexeme.scan vocabulary cs = .ok (lexeme, rest))
    (read : layout.read lexeme = .ok ([], after))
    (form : ∀ kind value, lexeme.form ≠ .content kind value)
    (h : Spells vocabulary after rest more) : Spells vocabulary layout cs more := by
  have nothing : spellings [] lexeme = [] := by
    rw [spellings]
    cases same : lexeme.form with
    | content kind value => exact absurd same (form kind value)
    | comment | lineBreak | blank => rfl
  have next := Spells.next scanned read h
  rwa [nothing] at next

theorem dropBreaks (h : Spells vocabulary layout cs more) (alike : Alike layout layout.afterBreak) :
    Spells vocabulary layout.afterBreak (cs.dropWhile isLineBreak) more := by
  cases cs with
  | nil => exact h.congr alike
  | cons c cs =>
    by_cases breaks : isLineBreak c = true
    · cases h with
      | next scanned read spells =>
        rw [Lexeme.scan_lineBreak breaks] at scanned
        cases scanned
        cases read
        exact spells
    · rw [List.dropWhile_cons_of_neg breaks]
      exact h.congr alike

theorem dropBlanks (h : Spells vocabulary layout cs more) (calm : layout.pending = false) :
    Spells vocabulary layout (cs.dropWhile isBlank) more := by
  cases cs with
  | nil => exact h
  | cons c cs =>
    by_cases blank : isBlank c = true
    · cases h with
      | next scanned read spells =>
        rw [Lexeme.scan_blank blank] at scanned
        cases scanned
        cases read
        exact spells.congr ⟨rfl, rfl, rfl, fun pending => by simp [calm] at pending⟩
    · rw [List.dropWhile_cons_of_neg blank]
      exact h

/-- Line breaks lead to the beginning of a line. -/
theorem breaks {run : List Char} (h : Spells vocabulary layout.afterBreak cs more)
    (nonempty : run ≠ []) (each : ∀ c ∈ run, isLineBreak c = true) :
    Spells vocabulary layout (run ++ cs) more :=
  .skip (Lexeme.scan_breaks vocabulary nonempty each cs) rfl nofun (h.dropBreaks (.refl _))

/-- Inside brackets white space comes to nothing. -/
theorem absorb {space : List Char} (h : Spells vocabulary layout cs more)
    (inside : 0 < layout.brackets) (calm : layout.pending = false)
    (each : ∀ c ∈ space, isSpace c = true) : Spells vocabulary layout (space ++ cs) more := by
  have alike : Alike layout layout.afterBreak := by
    refine ⟨rfl, rfl, ?_, fun pending => by simp [calm] at pending⟩
    rw [calm]
    exact beq_eq_false_iff_ne.mpr (Nat.ne_of_gt inside)
  induction space with
  | nil => exact h
  | cons c space ih =>
    obtain ⟨here, each⟩ := List.forall_mem_cons.mp each
    have later := ih each
    rw [List.cons_append]
    rcases Bool.or_eq_true_iff.mp here with lineBreak | blank
    · have dropped := later.dropBreaks alike
      rw [← List.dropWhile_cons_of_pos lineBreak] at dropped
      exact .skip (Lexeme.scan_lineBreak lineBreak _) rfl nofun dropped
    · have dropped := later.dropBlanks calm
      rw [← List.dropWhile_cons_of_pos blank] at dropped
      refine .skip (Lexeme.scan_blank blank _) rfl nofun
        (dropped.congr ⟨rfl, rfl, rfl, fun pending => ?_⟩)
      simp [calm] at pending

end Spells

/-! ## Writing a text again -/

/-- The ways to write a character again: as it is, a line feed after a carriage return, and a line
break inside brackets as a blank, unless it ends a comment. Literals stay as they are. -/
inductive Mark.Rewrites (mark : Mark) : List Char → Prop
  | keep : Rewrites mark [mark.char]
  | ending : mark.char = '\n' → mark.inLiteral = false → Rewrites mark ['\r', '\n']
  | loosen : isLineBreak mark.char = true → mark.inLiteral = false → 0 < mark.brackets →
    mark.endsComment = false → Rewrites mark [' ']

section

variable {inside : Mark → Prop} {front whole after : List Mark} {text rest : List Char}
  {texts : List (List Char)} {region : Region} {brackets : Nat}

theorem Mark.Rewrites.eq_of_fixed {mark : Mark} (h : mark.Rewrites text) (fixed : mark.Fixed) :
    text = [mark.char] := by
  cases h with
  | keep => rfl
  | ending line code =>
    obtain literal | other := fixed
    · rw [code] at literal
      cases literal
    · rw [line] at other
      cases other
  | loosen line code _ _ =>
    obtain literal | other := fixed
    · rw [code] at literal
      cases literal
    · rw [line] at other
      cases other

theorem flatten_of_fixed (h : List.Forall₂ Mark.Rewrites front texts)
    (fixed : ∀ mark ∈ front, mark.Fixed) : texts.flatten = front.map Mark.char := by
  induction h with
  | nil => rfl
  | cons here _ ih =>
    obtain ⟨first, fixed⟩ := List.forall_mem_cons.mp fixed
    rw [List.flatten_cons, here.eq_of_fixed first, ih fixed, List.map_cons]
    rfl

/-- White space is written as white space, and outside brackets line breaks as line breaks. -/
theorem flatten_of_breaks (h : List.Forall₂ Mark.Rewrites front texts)
    (each : ∀ mark ∈ front, isLineBreak mark.char = true ∧ mark.brackets = brackets) :
    (∀ c ∈ texts.flatten, isSpace c = true) ∧
      (brackets = 0 → ∀ c ∈ texts.flatten, isLineBreak c = true) := by
  induction h with
  | nil => simp
  | @cons mark text front texts here _ ih =>
    obtain ⟨⟨lineBreak, same⟩, each⟩ := List.forall_mem_cons.mp each
    obtain ⟨space, breaks⟩ := ih each
    rw [List.flatten_cons]
    refine ⟨List.forall_mem_append.mpr ⟨?_, space⟩,
      fun outside => List.forall_mem_append.mpr ⟨?_, breaks outside⟩⟩
    · cases here <;> simp [isSpace, isLineBreak, isBlank] at lineBreak ⊢
      exact .inl lineBreak
    · cases here with
      | keep => simpa using lineBreak
      | ending => simp [isLineBreak]
      | loosen _ _ inside => omega

/-- A text without a line feed is written without one. -/
theorem flatten_of_comment (h : List.Forall₂ Mark.Rewrites front texts)
    (each : ∀ mark ∈ front, mark.char ≠ '\n') : '\n' ∉ texts.flatten := by
  induction h with
  | nil => simp
  | cons here _ ih =>
    obtain ⟨other, each⟩ := List.forall_mem_cons.mp each
    rw [List.flatten_cons, List.mem_append, not_or]
    refine ⟨?_, ih each⟩
    cases here with
    | keep => simpa using Ne.symm other
    | ending line => exact absurd line other
    | loosen => simp

theorem flatten_ne_nil (h : List.Forall₂ Mark.Rewrites front texts) (some : front ≠ []) :
    texts.flatten ≠ [] := by
  cases h with
  | nil => exact absurd rfl some
  | cons here _ => cases here <;> simp

/-- The first character of a text stays, unless it is a line break. -/
theorem head?_of_rewrites (h : List.Forall₂ Mark.Rewrites (marks region brackets rest) texts) :
    ∀ c ∈ texts.flatten.head?, rest.head? = some c ∨
      (∃ d ∈ rest.head?, isLineBreak d = true) ∧ isSpace c = true ∧
        (brackets = 0 → isLineBreak c = true) := by
  intro c first
  cases rest with
  | nil =>
    cases h
    cases first
  | cons d rest =>
    cases h with
    | cons here _ =>
      cases here with
      | keep =>
        cases first
        exact .inl rfl
      | ending line =>
        cases first
        cases line
        exact .inr ⟨⟨'\n', rfl, rfl⟩, rfl, fun _ => rfl⟩
      | loosen line _ inside =>
        cases first
        exact .inr ⟨⟨d, rfl, line⟩, rfl, fun outside => absurd outside (Nat.ne_of_gt inside)⟩

/-- Texts written for marks that begin with those of a text. -/
theorem Marked.rewrites (marked : Marked inside text whole after)
    (h : List.Forall₂ Mark.Rewrites whole texts) :
    ∃ front texts₁ texts₂, texts.flatten = texts₁.flatten ++ texts₂.flatten ∧
      front.map Mark.char = text ∧ (∀ mark ∈ front, inside mark) ∧
      List.Forall₂ Mark.Rewrites front texts₁ ∧ List.Forall₂ Mark.Rewrites after texts₂ := by
  obtain ⟨front, rfl, chars, each⟩ := marked
  obtain ⟨texts₁, texts₂, first, second, rfl⟩ := forall₂_append_left h
  exact ⟨front, texts₁, texts₂, List.flatten_append, chars, each, first, second⟩

end

/-- A lexeme stays what it is if what follows it begins in the same way, or does not go on with
it. -/
theorem Lexeme.scan_next {vocabulary : Vocabulary} {rest other : List Char} {lexeme : Lexeme}
    (h : scan vocabulary (lexeme.text ++ rest) = .ok (lexeme, rest))
    (next : ∀ c ∈ other.head?, rest.head? = some c ∨ lexeme.form.stops c = true) :
    scan vocabulary (lexeme.text ++ other) = .ok (lexeme, other) := by
  have alone : scan vocabulary lexeme.text = .ok (lexeme, []) := by
    have front : scan vocabulary (lexeme.text ++ rest) = .ok (lexeme, [] ++ rest) := h
    simpa using scan_front front
  cases other with
  | nil => simpa using alone
  | cons c other =>
    obtain same | stops := next c rfl
    · obtain ⟨back, rfl⟩ := List.head?_eq_some_iff.mp same
      have front : scan vocabulary (lexeme.text ++ c :: back) = .ok (lexeme, [c] ++ back) := h
      have more : scan vocabulary (lexeme.text ++ [c] ++ other) = .ok (lexeme, [c] ++ other) :=
        scan_append (scan_front front) (.inl (by simp))
      simpa using more
    · refine scan_append alone (.inr fun d first => ?_)
      cases first
      exact stops

/-- After a token no line break is to be answered. -/
theorem Layout.read_content {layout after : Layout} {due : List Token.Kind} {lexeme : Lexeme}
    {kind : Token.Kind} {value : String} (form : lexeme.form = .content kind value)
    (read : layout.read lexeme = .ok (due, after)) :
    after.pending = false ∧ after.brackets = countBracket layout.brackets kind value := by
  rw [Layout.read, form] at read
  obtain ⟨⟨due, settled⟩, same, made⟩ := bind_eq_ok.mp read
  cases made
  unfold Layout.settle at same
  split at same
  · split at same <;> cases same
    exact ⟨rfl, rfl⟩
  · rename_i calm
    cases same
    exact ⟨by simpa using calm, rfl⟩

namespace Spells

variable {vocabulary : Vocabulary} {layout : Layout} {cs : List Char}
  {more : List (Token.Kind × String)}

/-- Before what may come after a comment, the comment comes to nothing. -/
theorem comment {text : List Char} (h : Spells vocabulary layout cs more) (inside : '\n' ∉ text)
    (line : (∀ c ∈ cs.head?, c = '\n') ∨ ∃ tail, cs = '\r' :: '\n' :: tail) :
    Spells vocabulary layout ('/' :: '/' :: text ++ cs) more := by
  obtain line | ⟨tail, rfl⟩ := line
  · exact .skip (Lexeme.scan_comment_exact vocabulary inside line) rfl nofun h
  · -- the carriage return is part of the comment
    have later : Spells vocabulary layout ('\n' :: tail) more := by
      cases h with
      | next scanned read spells =>
        rw [Lexeme.scan_lineBreak rfl] at scanned
        cases scanned
        cases read
        exact .skip (Lexeme.scan_lineBreak rfl tail) rfl nofun spells
    have carried : '\n' ∉ text ++ ['\r'] := by simp [inside]
    have split : '/' :: '/' :: text ++ '\r' :: '\n' :: tail =
        '/' :: '/' :: (text ++ ['\r']) ++ '\n' :: tail := by simp
    rw [split]
    exact .skip (Lexeme.scan_comment_exact vocabulary carried (by simp)) rfl nofun later

end Spells

/-! ## A source in two forms -/

/-- A text from a layout on says the same in whatever way its white space is written. -/
def Respaceable (vocabulary : Vocabulary) (layout : Layout) (region : Region) (cs : List Char)
    (more : List (Token.Kind × String)) : Prop :=
  ∀ texts : List (List Char), List.Forall₂ Mark.Rewrites (marks region layout.brackets cs) texts →
    ∀ other, Alike layout other → Spells vocabulary other texts.flatten more

section

variable {vocabulary : Vocabulary} {layout after : Layout} {rest : List Char} {lexeme : Lexeme}
  {due : List Token.Kind} {more : List (Token.Kind × String)}

theorem respaceable_content {kind : Token.Kind} {value : String}
    (scanned : Lexeme.scan vocabulary (lexeme.text ++ rest) = .ok (lexeme, rest))
    (form : lexeme.form = .content kind value) (read : layout.read lexeme = .ok (due, after))
    (brackets : after.brackets = Layout.countBracket layout.brackets kind value)
    (later : Respaceable vocabulary after .code rest more) :
    Respaceable vocabulary layout .code (lexeme.text ++ rest) (spellings due lexeme ++ more) := by
  intro texts written other alike
  have writing := Lexeme.writing_of_scan scanned form
  have slash : lexeme.text = ['/'] → rest.head? ≠ some '/' := fun slash next =>
    (Lexeme.uncut_of_scan scanned).slash slash _ next rfl
  have marked : Marked Mark.Fixed lexeme.text
      (marks .code layout.brackets (lexeme.text ++ rest)) (marks .code after.brackets rest) := by
    rw [brackets]
    exact marked_writing writing slash
  obtain ⟨front, texts₁, texts₂, same, chars, fixed, first, second⟩ := marked.rewrites written
  obtain ⟨after', read', alike'⟩ := alike.read read
  rw [same, flatten_of_fixed first fixed, chars]
  refine .next (Lexeme.scan_next scanned fun c next => ?_) read' (later texts₂ second after' alike')
  rw [form]
  exact (head?_of_rewrites second c next).imp_right fun other => other.2.1

/-- What is written for a comment is a comment. -/
theorem flatten_comment {front : List Mark} {texts : List (List Char)} {text : List Char}
    (h : List.Forall₂ Mark.Rewrites front texts) (chars : front.map Mark.char = '/' :: '/' :: text)
    (inside : ∀ mark ∈ front, mark.char ≠ '\n') :
    ∃ text', '\n' ∉ text' ∧ texts.flatten = '/' :: '/' :: text' := by
  have slash {mark : Mark} {written : List Char} (same : mark.char = '/')
      (h : mark.Rewrites written) : written = ['/'] := by
    rw [h.eq_of_fixed (.inr (by rw [same]; rfl)), same]
  obtain ⟨mark, front, rfl, first, chars⟩ := List.map_eq_cons_iff.mp chars
  obtain ⟨next, front, rfl, second, -⟩ := List.map_eq_cons_iff.mp chars
  obtain _ | ⟨one, h⟩ := h
  obtain _ | ⟨two, h⟩ := h
  obtain rfl := slash first one
  obtain rfl := slash second two
  have inside := (List.forall_mem_cons.mp (List.forall_mem_cons.mp inside).2).2
  exact ⟨_, flatten_of_comment h inside, rfl⟩

theorem respaceable_comment {text : List Char} (inside : '\n' ∉ text)
    (line : ∀ c ∈ rest.head?, c = '\n') (later : Respaceable vocabulary layout .comment rest more) :
    Respaceable vocabulary layout .code ('/' :: '/' :: text ++ rest) more := by
  intro texts written other alike
  obtain ⟨front, texts₁, texts₂, same, chars, others, first, second⟩ :=
    (marked_comment inside rest).rewrites written
  obtain ⟨text', inside', comment⟩ := flatten_comment first chars others
  rw [same, comment]
  refine (later texts₂ second other alike).comment inside' ?_
  cases rest with
  | nil =>
    cases second
    exact .inl nofun
  | cons c rest =>
    obtain rfl : c = '\n' := line c rfl
    obtain _ | ⟨here, -⟩ := second
    cases here with
    | keep => exact .inl (by simp)
    | ending => exact .inr ⟨_, rfl⟩
    | loosen _ _ _ other => cases other

theorem respaceable_blanks {text : List Char} (some : text ≠ [])
    (blanks : ∀ c ∈ text, isBlank c = true) (stops : ∀ c ∈ rest.head?, isBlank c = false)
    (calm : layout.pending = true → layout.brackets = 0)
    (later : Respaceable vocabulary { layout with blanks := text } .code rest more) :
    Respaceable vocabulary layout .code (text ++ rest) more := by
  intro texts written other alike
  have plain : ∀ c ∈ text, isPlain c = true := fun c member =>
    isPlain_of_isSpace (by simp [isSpace, blanks c member])
  have fixed : ∀ c ∈ text, Mark.Fixed ⟨c, .code, layout.brackets⟩ := by
    intro c member
    obtain rfl | rfl := Lexeme.blank_cases (blanks c member) <;> exact .inr rfl
  obtain ⟨front, texts₁, texts₂, same, chars, fixed, first, second⟩ :=
    (marked_plain plain fixed rest).rewrites written
  rw [same, flatten_of_fixed first fixed, chars]
  by_cases outside : layout.brackets = 0
  · have stops : ∀ c ∈ texts₂.flatten.head?, isBlank c = false := by
      intro c next
      obtain same | ⟨-, -, lineBreak⟩ := head?_of_rewrites second c next
      · exact stops c same
      · obtain rfl | rfl := Lexeme.lineBreak_cases (lineBreak outside) <;> rfl
    refine .skip (Lexeme.scan_blanks_exact vocabulary some blanks stops) rfl ?_ ?_
    · exact fun _ _ => Lexeme.Form.noConfusion
    · exact later texts₂ second _ ⟨alike.blocks, alike.brackets, alike.pending, fun _ => rfl⟩
  · have calm : layout.pending = false := eq_false_of_ne_true (mt calm outside)
    have said := later texts₂ second other
      ⟨alike.blocks, alike.brackets, alike.pending, fun pending => by simp [calm] at pending⟩
    refine said.absorb ?_ (alike.pending.trans calm) fun c member => ?_
    · rw [alike.brackets]
      exact Nat.pos_of_ne_zero outside
    · simp [isSpace, blanks c member]

theorem respaceable_breaks {text : List Char} {region : Region} (some : text ≠ [])
    (breaks : ∀ c ∈ text, isLineBreak c = true)
    (place : region = .code ∨ region = .comment ∧ text.head? = Option.some '\n')
    (calm : layout.pending = true → layout.brackets = 0)
    (later : Respaceable vocabulary layout.afterBreak .code rest more) :
    Respaceable vocabulary layout region (text ++ rest) more := by
  intro texts written other alike
  obtain ⟨front, texts₁, texts₂, same, chars, inside, first, second⟩ :=
    (marked_breaks breaks place rest).rewrites written
  obtain ⟨space, lines⟩ := flatten_of_breaks first inside
  have nonempty : texts₁.flatten ≠ [] := by
    refine flatten_ne_nil first ?_
    rintro rfl
    exact some chars.symm
  rw [same]
  by_cases outside : layout.brackets = 0
  · exact (later texts₂ second _ alike.afterBreak).breaks nonempty (lines outside)
  · have calm : layout.pending = false := eq_false_of_ne_true (mt calm outside)
    have open_brackets : (layout.brackets == 0) = false := beq_eq_false_iff_ne.mpr outside
    have said := later texts₂ second other ⟨alike.blocks, alike.brackets,
      (alike.pending.trans calm).trans open_brackets.symm, fun pending => ?_⟩
    · refine said.absorb ?_ (alike.pending.trans calm) space
      rw [alike.brackets]
      exact Nat.pos_of_ne_zero outside
    · rw [Layout.afterBreak, open_brackets] at pending
      cases pending

/-- A text says the same in whatever way its white space is written. -/
theorem Spells.respaceable {cs : List Char} (h : Spells vocabulary layout cs more)
    (calm : layout.pending = true → layout.brackets = 0) {region : Region}
    (place : region = .code ∨ region = .comment ∧ ∀ c ∈ cs.head?, c = '\n') :
    Respaceable vocabulary layout region cs more := by
  induction h generalizing region with
  | stop layout =>
    intro texts written other alike
    cases written
    exact .stop other
  | @next layout after cs rest lexeme due more scanned read spells ih =>
    have whole := (Lexeme.append_of_scan scanned).2
    -- a comment is over where the next lexeme is not a run of line breaks
    have code (h : lexeme.form ≠ .lineBreak) : region = .code := by
      obtain code | ⟨-, line⟩ := place
      · exact code
      · cases cs with
        | nil => cases scanned
        | cons c cs =>
          obtain rfl : c = '\n' := line c rfl
          rw [Lexeme.scan_lineBreak rfl] at scanned
          cases scanned
          exact absurd rfl h
    cases Lexeme.ended_of_scan scanned with
    | content form =>
      obtain rfl := code (by simp [form])
      obtain ⟨settled, brackets⟩ := Layout.read_content form read
      subst whole
      exact respaceable_content scanned form read brackets
        (ih (fun pending => by simp [settled] at pending) (.inl rfl))
    | comment inside line =>
      obtain rfl := code nofun
      subst whole
      cases read
      exact respaceable_comment inside line (ih calm (.inr ⟨rfl, line⟩))
    | @lineBreak text _ some each =>
      subst whole
      cases read
      have place : region = .code ∨ region = .comment ∧ text.head? = Option.some '\n' := by
        refine place.imp_right fun ⟨comment, line⟩ => ⟨comment, ?_⟩
        obtain ⟨c, tail, rfl⟩ := List.exists_cons_of_ne_nil some
        rw [line c rfl, List.head?_cons]
      exact respaceable_breaks some each place calm
        (ih (fun pending => by simpa using pending) (.inl rfl))
    | blank some each stops =>
      obtain rfl := code nofun
      subst whole
      cases read
      exact respaceable_blanks some each stops calm (ih calm (.inl rfl))

end

/-! ## Sources in two forms -/

/-- A source whose line feeds outside literals come after a carriage return. -/
def crlf (cs : List Char) : List Char :=
  (marks .code 0 cs).flatMap fun mark =>
    if mark.char = '\n' ∧ mark.inLiteral = false then ['\r', '\n'] else [mark.char]

/-- A character, or a blank for a line break that is loose inside brackets. -/
def Mark.Loosens (mark : Mark) (c : Char) : Prop :=
  c = mark.char ∨ c = ' ' ∧ isLineBreak mark.char = true ∧ mark.inLiteral = false ∧
    0 < mark.brackets ∧ mark.endsComment = false

section

variable {vocabulary : Vocabulary} {source file : String} {tokens : Array Token}

theorem tokenize_rewritten (done : tokenize source file vocabulary = .ok tokens)
    {texts : List (List Char)}
    (written : List.Forall₂ Mark.Rewrites (marks .code 0 source.toList) texts) :
    ∃ other, tokenize (String.ofList texts.flatten) file vocabulary = .ok other ∧
      other.toList.map Token.spelling = tokens.toList.map Token.spelling := by
  rw [Lexing.Reached.start.finish_eq] at done
  obtain ⟨more, spells, same⟩ := Lexing.spells_of_finish done
  have respaced := spells.respaceable nofun (.inl rfl) texts written .initial (.refl _)
  obtain ⟨other, done', same'⟩ := respaced.finish file (.start (String.ofList texts.flatten)) rfl
    String.toList_ofList
  refine ⟨other, ?_, same'.trans same.symm⟩
  rw [Lexing.Reached.start.finish_eq, done']

theorem tokenize_crlf (done : tokenize source file vocabulary = .ok tokens) :
    ∃ other, tokenize (String.ofList (crlf source.toList)) file vocabulary = .ok other ∧
      other.toList.map Token.spelling = tokens.toList.map Token.spelling := by
  rw [crlf, List.flatMap]
  refine tokenize_rewritten done ?_
  rw [List.forall₂_map_right_iff, List.forall₂_same]
  intro mark _
  split
  case isTrue h => exact .ending h.1 h.2
  case isFalse => exact .keep

theorem tokenize_loosened (done : tokenize source file vocabulary = .ok tokens) {text : List Char}
    (loosened : List.Forall₂ Mark.Loosens (marks .code 0 source.toList) text) :
    ∃ other, tokenize (String.ofList text) file vocabulary = .ok other ∧
      other.toList.map Token.spelling = tokens.toList.map Token.spelling := by
  have single : text = (text.map ([·])).flatten := by
    rw [← List.flatMap_def, List.flatMap_singleton']
  rw [single]
  refine tokenize_rewritten done ?_
  rw [List.forall₂_map_right_iff]
  refine loosened.imp ?_
  rintro mark c (rfl | ⟨rfl, line, code, inside, loose⟩)
  · exact .keep
  · exact .loosen line code inside loose

end

/-- White space that makes no difference. After a line break a blank line or a comment line moves
what follows it and changes nothing else. The tokens of a source stay the same if its line feeds
outside literals come after a carriage return, and if line breaks inside brackets become blanks. -/
theorem tokens_respaced (vocabulary : Vocabulary) (file : String) :
    (∀ (before after : String) (front line : List Char) (tokens : Array Token),
      before.toList = front ++ ['\n'] → tokenize before file vocabulary = .ok tokens →
      BlankLine line →
      Insertion.MovesOutcome ⟨file, Text.byteCount before.toList, Text.byteCount line⟩
        (Text.byteCount (before ++ after).toList) (tokenize (before ++ after) file vocabulary)
        (tokenize (before ++ String.ofList line ++ after) file vocabulary)) ∧
    ∀ (source : String) (tokens : Array Token), tokenize source file vocabulary = .ok tokens →
      (∃ other, tokenize (String.ofList (crlf source.toList)) file vocabulary = .ok other ∧
        other.toList.map Token.spelling = tokens.toList.map Token.spelling) ∧
      ∀ text, List.Forall₂ Mark.Loosens (marks .code 0 source.toList) text →
        ∃ other, tokenize (String.ofList text) file vocabulary = .ok other ∧
          other.toList.map Token.spelling = tokens.toList.map Token.spelling := by
  refine ⟨?_, fun source tokens done => ⟨tokenize_crlf done, fun text => tokenize_loosened done⟩⟩
  intro before after front line tokens ends done blank
  exact tokenize_blankLine ends done blank after

theorem tokens_respaced_brackets :
    Insertion.MovesOutcome ⟨defaultFile, 2, 7⟩ 8 (tokenize "a\nb[\n1]\n")
      (tokenize "a\n\t// x\r\nb[\n1]\n") ∧
    ∃ tokens again loose, tokenize "b[\n1]\n" = .ok tokens ∧ tokenize "b[\r\n1]\r\n" = .ok again ∧
      tokenize "b[ 1]\n" = .ok loose ∧
      again.toList.map Token.spelling = tokens.toList.map Token.spelling ∧
      loose.toList.map Token.spelling = tokens.toList.map Token.spelling := by
  obtain ⟨moves, changes⟩ := tokens_respaced .language defaultFile
  constructor
  · have accepted : (tokenize "a\n").isOk = true := by decide +kernel
    obtain ⟨tokens, done⟩ := exists_of_isOk accepted
    have line : BlankLine (['\t'] ++ (['/', '/', ' ', 'x'] ++ ['\r', '\n'])) :=
      .line (by simp [isBlank]) (.inr ⟨[' ', 'x'], by decide, rfl⟩) (.inr rfl)
    exact moves "a\n" "b[\n1]\n" ['a'] _ tokens rfl done line
  · have accepted : (tokenize "b[\n1]\n").isOk = true := by decide +kernel
    obtain ⟨tokens, done⟩ := exists_of_isOk accepted
    obtain ⟨⟨again, written, same⟩, loosens⟩ := changes "b[\n1]\n" tokens done
    have loosened : List.Forall₂ Mark.Loosens (marks .code 0 "b[\n1]\n".toList) "b[ 1]\n".toList :=
      .cons (.inl rfl) (.cons (.inl rfl) (.cons (.inr ⟨rfl, rfl, rfl, Nat.zero_lt_one, rfl⟩)
        (.cons (.inl rfl) (.cons (.inl rfl) (.cons (.inl rfl) .nil)))))
    obtain ⟨loose, read, same'⟩ := loosens _ loosened
    exact ⟨tokens, again, loose, done, written, read, same, same'⟩

end PseudoLang
