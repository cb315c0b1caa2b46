import PseudoLang.Proofs.Token.Concatenation

/-!
Sources that are cut off. A lexeme stays what it is if the source ends somewhere after it
(`scan_front`), so that what stands before an error is read without one
(`exists_front_of_error`). Every token starts inside the source (`starts_of_tokenize`).
-/

namespace PseudoLang

open Text (byteCount byteCount_append)

namespace Lexeme

variable {vocabulary : Vocabulary} {cs front back : List Char} {lexeme : Lexeme}

/-! ## Lexemes at the end of a source -/

/-- Where a run of characters has ended, what follows does not go on with it. -/
theorem run_ended {p : Char → Bool} (h : cs.dropWhile p = front ++ back) :
    front.takeWhile p = [] ∧ front.dropWhile p = front := by
  cases front with
  | nil => exact ⟨rfl, rfl⟩
  | cons c front =>
    have stops : p c = false := stops_of_dropWhile p cs c (by rw [h]; rfl)
    simp [stops]

theorem takeWhile_front {p : Char → Bool} (h : cs.dropWhile p = front ++ back) :
    (cs.takeWhile p ++ front).takeWhile p = cs.takeWhile p := by
  rw [List.takeWhile_append_of_pos fun c => List.mem_takeWhile_imp, (run_ended h).1,
    List.append_nil]

theorem dropWhile_front {p : Char → Bool} (h : cs.dropWhile p = front ++ back) :
    (cs.takeWhile p ++ front).dropWhile p = front := by
  rw [List.dropWhile_append_of_pos fun c => List.mem_takeWhile_imp, (run_ended h).2]

theorem run_front {form : Form} {p : Char → Bool} (h : run form p cs = (lexeme, front ++ back)) :
    run form p (lexeme.text ++ front) = (lexeme, front) := by
  obtain ⟨rfl, rest⟩ := Prod.mk.inj h
  rw [run, takeWhile_front rest, dropWhile_front rest]

/-- A literal needs nothing of what stands after it. -/
theorem readLiteral_alone {value text : List Char} {literal : Literal}
    (h : readLiteral value text cs = .ok literal) :
    ∃ body, cs = body ++ literal.rest ∧
      readLiteral value text body = .ok { literal with rest := [] } := by
  fun_induction readLiteral value text cs
  case case2 rest =>
    cases h
    exact ⟨['"'], rfl, rfl⟩
  case case4 high low rest h' l lowDigit highDigit ih =>
    obtain ⟨body, rfl, alone⟩ := ih h
    refine ⟨'\\' :: 'x' :: high :: low :: body, rfl, ?_⟩
    simpa [readLiteral, lowDigit, highDigit] using alone
  case case7 c rest notHex notX ih =>
    obtain ⟨body, rfl, alone⟩ := ih h
    refine ⟨'\\' :: c :: body, rfl, ?_⟩
    simpa [readLiteral, notX] using alone
  case case8 c rest quote alone hex escape ih =>
    have plain : c ≠ '\\' := by
      rintro rfl
      cases rest with
      | nil => exact alone rfl rfl
      | cons d rest => exact escape d rest rfl rfl
    obtain ⟨body, rfl, same⟩ := ih h
    refine ⟨c :: body, rfl, ?_⟩
    simpa [readLiteral, quote, plain] using same
  all_goals cases h

/-- A literal is read in the same way if the source ends somewhere after it. -/
theorem readLiteral_front {literal : Literal} (h : readLiteral [] ['"'] cs = .ok literal)
    (front : List Char) : ∃ body, literal.text = '"' :: body ∧
      readLiteral [] ['"'] (body ++ front) = .ok { literal with rest := front } := by
  obtain ⟨body, -, alone⟩ := readLiteral_alone h
  refine ⟨body, ?_, readLiteral_append alone front⟩
  simpa using append_of_readLiteral alone

theorem spanNumber_front {text : List Char} (h : spanNumber cs = (text, front ++ back))
    (point : (front ++ back).head? ≠ some '.') : spanNumber (text ++ front) = (text, front) := by
  have noPoint : front.head? ≠ some '.' := by
    cases front with
    | nil => simp
    | cons c front => exact point
  unfold spanNumber at h
  split at h
  · rename_i rest found
    obtain ⟨rfl, ended⟩ := Prod.mk.inj h
    have whole : cs.dropWhile Text.isDigit =
        '.' :: (rest.takeWhile Text.isDigit ++ front) ++ back := by
      rw [found, List.cons_append, List.append_assoc, ← ended, List.takeWhile_append_dropWhile]
    rw [List.append_assoc, List.cons_append]
    unfold spanNumber
    rw [takeWhile_front whole, dropWhile_front whole]
    simp only [takeWhile_front ended, dropWhile_front ended]
  · obtain ⟨rfl, ended⟩ := Prod.mk.inj h
    unfold spanNumber
    rw [takeWhile_front ended, dropWhile_front ended]
    cases front with
    | nil => rfl
    | cons c front =>
      have other : c ≠ '.' := fun same => noPoint (congrArg some same)
      simp [other]

theorem scanNumber_front (h : scanNumber cs = .ok (lexeme, front ++ back)) :
    scanNumber (lexeme.text ++ front) = .ok (lexeme, front) := by
  obtain ⟨spanned, point, form⟩ := scanNumber_eq_ok.mp h
  refine scanNumber_eq_ok.mpr ⟨spanNumber_front spanned point, ?_, form⟩
  cases front with
  | nil => simp
  | cons c front => exact point

theorem text_of_scanNumber {rest : List Char} (h : scanNumber cs = .ok (lexeme, rest)) :
    lexeme.text = (spanNumber cs).1 := by
  rw [(scanNumber_eq_ok.mp h).1]

theorem scanPunctuation_front (h : scanPunctuation cs = some (lexeme, front ++ back)) :
    scanPunctuation (lexeme.text ++ front) = some (lexeme, front) := by
  have whole := (append_of_scanPunctuation h).2
  have cut : lexeme.text ++ front <+: cs := by
    rw [← whole, ← List.append_assoc]
    exact List.prefix_append _ back
  unfold scanPunctuation at h ⊢
  generalize punctuation = entries at h
  induction entries with
  | nil => cases h
  | cons entry entries ih =>
    obtain ⟨text, kind⟩ := entry
    rw [List.findSome?_cons] at h ⊢
    dsimp only at h ⊢
    by_cases here : text <+: cs
    · rw [if_pos here] at h
      obtain ⟨rfl, -⟩ := Prod.mk.inj (Option.some.inj h)
      rw [if_pos (List.prefix_append text front)]
      simp
    · rw [if_neg here] at h
      rw [if_neg fun front => here (front.trans cut)]
      exact ih h

/-- The digit that a number starts with, or has after its point, belongs to it. -/
theorem startsNumber_spanNumber (h : startsNumber cs = true) :
    startsNumber (spanNumber cs).1 = true := by
  have notPoint : Text.isDigit '.' = false := by decide
  match cs, h with
  | c :: tail, h =>
    by_cases point : c = '.'
    · subst point
      match tail, h with
      | d :: tail, digit =>
        have digit : Text.isDigit d = true := digit
        simp [spanNumber, notPoint, digit, startsNumber]
    · have digit : Text.isDigit c = true := by simpa [startsNumber, point] using h
      unfold spanNumber
      split <;> simp [digit, startsNumber, point]

/-- A comment has the slashes that begin it. -/
theorem slashes_of_run {rest : List Char} (slashes : ['/', '/'] <+: cs)
    (ran : run .comment (· != '\n') cs = (lexeme, rest)) : ['/', '/'] <+: lexeme.text := by
  obtain ⟨tail, rfl⟩ := slashes
  obtain ⟨rfl, -⟩ := Prod.mk.inj ran
  exact ⟨tail.takeWhile (· != '\n'), by simp⟩

/-- Where a run begins with a character, its text does. -/
theorem run_front_cons {form : Form} {p : Char → Bool} {c : Char} {tail : List Char}
    (first : p c = true) (h : run form p (c :: tail) = (lexeme, front ++ back)) :
    ∃ tail', lexeme.text ++ front = c :: tail' ∧
      run form p (c :: tail') = (lexeme, front) := by
  have text : lexeme.text = c :: tail.takeWhile p := by
    obtain ⟨rfl, -⟩ := Prod.mk.inj h
    exact List.takeWhile_cons_of_pos first
  have same : lexeme.text ++ front = c :: (tail.takeWhile p ++ front) := by
    rw [text, List.cons_append]
  exact ⟨_, same, same ▸ run_front h⟩

/-- A lexeme is read in the same way if the source ends somewhere after it. -/
theorem scan_front (h : scan vocabulary cs = .ok (lexeme, front ++ back)) :
    scan vocabulary (lexeme.text ++ front) = .ok (lexeme, front) := by
  obtain ⟨some, whole⟩ := append_of_scan h
  have shorter : lexeme.text ++ front <+: cs := by
    rw [← whole, ← List.append_assoc]
    exact List.prefix_append _ back
  refine scan_of_scanned ?_
  generalize same : front ++ back = rest at h
  cases scanned_of_scan h with
  | comment slashes ran =>
    subst same
    exact .comment ((slashes_of_run slashes ran).trans (List.prefix_append _ front)) (run_front ran)
  | lineBreak first ran =>
    subst same
    obtain ⟨tail, same, ran⟩ := run_front_cons first ran
    exact same ▸ .lineBreak first ran
  | blank first ran =>
    subst same
    obtain ⟨tail, same, ran⟩ := run_front_cons first ran
    exact same ▸ .blank first ran
  | word start form ran =>
    subst same
    obtain ⟨tail, same, ran⟩ := run_front_cons (by simp [isWordPart, start]) ran
    exact same ▸ .word start form ran
  | number starts read =>
    subst same
    have number := startsNumber_spanNumber starts
    rw [← text_of_scanNumber read] at number
    exact .number (startsNumber_of_isPrefix (List.prefix_append _ front) number)
      (scanNumber_front read)
  | literal read =>
    obtain ⟨body, text, sooner⟩ := readLiteral_front read front
    dsimp only
    rw [text, List.cons_append, ← text]
    exact .literal sooner
  | punctuation comment number found =>
    subst same
    refine .punctuation (fun slashes => comment (slashes.trans shorter)) ?_
      (scanPunctuation_front found)
    refine eq_false_of_ne_true fun starts => ?_
    rw [startsNumber_of_isPrefix shorter starts] at number
    cases number

end Lexeme

namespace Lexing

variable {vocabulary : Vocabulary} {file : String} {state : Lexing}

/-- What has been read when an error is met is read without one if the source ends there. -/
theorem exists_front_of_error {error : Error} (h : state.finish vocabulary file = .error error) :
    ∃ front back, state.rest = front ++ back ∧
      error.position = ⟨(state.offset + byteCount front).toUInt32, file⟩ ∧
      ∃ tokens, ({ state with rest := front } : Lexing).finish vocabulary file = .ok tokens := by
  induction state using Lexing.induction vocabulary file with
  | last state empty =>
    rw [finish_of_nil empty] at h
    cases h
  | stuck state cause some taken =>
    rw [finish_of_error some taken] at h
    cases h
    exact ⟨[], state.rest, rfl, by simp, _, finish_of_nil rfl⟩
  | step state next taken ih =>
    obtain ⟨lexeme, rest, due, layout, scanned, read, rfl⟩ := step_eq_ok.mp taken
    rw [finish_of_step taken] at h
    obtain ⟨front, back, same, position, tokens, finished⟩ := ih h
    have same : rest = front ++ back := same
    subst same
    refine ⟨lexeme.text ++ front, back, ?_, ?_, tokens, ?_⟩
    · rw [List.append_assoc, (Lexeme.append_of_scan scanned).2]
    · rw [position, byteCount_append, Nat.add_assoc]
    · have sooner : ({ state with rest := lexeme.text ++ front } : Lexing).step vocabulary file =
          .ok ⟨state.offset + byteCount lexeme.text, layout,
            state.tokens ++ Token.ofLexeme file state.offset due lexeme, front⟩ :=
        step_eq_ok.mpr ⟨lexeme, front, due, layout, Lexeme.scan_front scanned, read, rfl⟩
      rw [finish_of_step sooner]
      exact finished

end Lexing

/-! ## Places of errors and of tokens -/

/-- A place at a character of a source, or at its end. -/
def Position.Within (source : List Char) (file : String) (position : Position) : Prop :=
  ∃ front back, source = front ++ back ∧ position = ⟨(byteCount front).toUInt32, file⟩

/-- The tokens of a lexeme start where it does. -/
theorem Token.start_of_mem_ofLexeme {file : String} {offset : Nat} {due : List Kind}
    {lexeme : Lexeme} {token : Token} (h : token ∈ ofLexeme file offset due lexeme) :
    token.span.start = ⟨offset.toUInt32, file⟩ := by
  obtain layout | content := List.mem_append.mp h
  · obtain ⟨kind, -, rfl⟩ := List.mem_map.mp layout
    rfl
  · split at content
    · rw [List.mem_singleton.mp content]
      rfl
    · cases content

namespace Lexing

/-- A state in the middle of a source, after tokens that start before it. -/
def Placed (source : List Char) (file : String) (state : Lexing) : Prop :=
  ∃ front, source = front ++ state.rest ∧ state.offset = byteCount front ∧
    ∀ token ∈ state.tokens, token.span.start.Within source file

theorem Placed.start (source file : String) : (Lexing.start source).Placed source.toList file :=
  ⟨[], rfl, rfl, by simp [Lexing.start]⟩

theorem Placed.step {vocabulary : Vocabulary} {source : List Char} {file : String}
    {state next : Lexing} (h : state.Placed source file)
    (taken : state.step vocabulary file = .ok next) : next.Placed source file := by
  obtain ⟨front, same, offset, inside⟩ := h
  obtain ⟨lexeme, rest, due, layout, scanned, -, rfl⟩ := step_eq_ok.mp taken
  refine ⟨front ++ lexeme.text, ?_, ?_, ?_⟩
  · rw [List.append_assoc, (Lexeme.append_of_scan scanned).2, same]
  · rw [byteCount_append, ← offset]
  · intro token member
    rw [← Array.mem_toList_iff, Array.toList_appendList, List.mem_append] at member
    obtain earlier | here := member
    · exact inside token (Array.mem_toList_iff.mp earlier)
    · exact ⟨front, state.rest, same, by rw [Token.start_of_mem_ofLexeme here, offset]⟩

end Lexing

section

variable {vocabulary : Vocabulary} {source file : String}

/-- An error stands at the end of a part of the source that is read without one. -/
theorem exists_front_of_tokenize {error : Error}
    (h : tokenize source file vocabulary = .error error) :
    ∃ front back, source.toList = front ++ back ∧
      error.position = ⟨(byteCount front).toUInt32, file⟩ ∧
      ∃ tokens, tokenize (String.ofList front) file vocabulary = .ok tokens := by
  have failed : (Lexing.start source).finish vocabulary file = .error error := h
  obtain ⟨front, back, same, position, tokens, finished⟩ := Lexing.exists_front_of_error failed
  refine ⟨front, back, same, ?_, tokens, ?_⟩
  · rw [position, Lexing.start, Nat.zero_add]
  · rw [tokenize, String.toList_ofList]
    exact finished

theorem starts_of_tokenize {tokens : Array Token}
    (h : tokenize source file vocabulary = .ok tokens) :
    ∀ token ∈ tokens, token.span.start.Within source.toList file := by
  suffices later : ∀ state : Lexing, state.finish vocabulary file = .ok tokens →
      state.Placed source.toList file →
      ∀ token ∈ tokens, token.span.start.Within source.toList file from
    later (.start source) h (.start source file)
  intro state finished
  refine Lexing.induction_of_finish (motive := fun state => state.Placed source.toList file →
    ∀ token ∈ tokens, token.span.start.Within source.toList file) ?_ ?_ finished
  · rintro state - rfl ⟨front, same, offset, inside⟩ token member
    obtain earlier | rfl := Array.mem_push.mp member
    · exact inside token earlier
    · exact ⟨front, state.rest, same, by rw [← offset]; rfl⟩
  · exact fun state next taken ih placed => ih (placed.step taken)

end

end PseudoLang
