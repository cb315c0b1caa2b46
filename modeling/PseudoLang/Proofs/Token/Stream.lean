import Mathlib.Data.List.TakeWhile
import PseudoLang.Proofs.Token.Scan
import PseudoLang.Token.Stream

/-!
What a stream of tokens read from a source consists of: words and signs of the vocabulary, literals
and layout, with one `eof` token at its end.
-/

namespace PseudoLang

/-- A word of letters, digits and underscores that does not start with a digit. -/
def IsWord (word : String) : Prop :=
  ∃ c rest, word.toList = c :: rest ∧ Lexeme.isWordStart c = true ∧
    ∀ d ∈ rest, Lexeme.isWordPart d = true

/-- A word without a meaning of its own. -/
def Vocabulary.IsName (vocabulary : Vocabulary) (word : String) : Prop :=
  IsWord word ∧ word ∉ vocabulary.keywords ∧ word ∉ vocabulary.operators ∧
    word ≠ "true" ∧ word ≠ "false"

/-- A kind of token with a text that a source can give it. -/
def Vocabulary.Writes (vocabulary : Vocabulary) (kind : Token.Kind) (value : String) : Prop :=
  match kind with
  | .keyword => value ∈ vocabulary.keywords
  | .operator =>
    value ∈ vocabulary.operators ∨
      ∃ text, (text, .operator) ∈ Lexeme.punctuation ∧ value = String.ofList text
  | .symbol => ∃ text, (text, .symbol) ∈ Lexeme.punctuation ∧ value = String.ofList text
  | .name => vocabulary.IsName value
  | .number => ∀ c ∈ value.toList, Text.isDigit c = true
  | .bool => value = "true" ∨ value = "false"
  | .float | .string => True
  | .eof | .indent | .dedent | .newline => False

theorem Vocabulary.writes_classify (vocabulary : Vocabulary) {word : String} (h : IsWord word) :
    vocabulary.Writes (vocabulary.classify word) word := by
  unfold classify
  split
  · rename_i operator
    exact .inl operator
  · rename_i operator
    split
    · rename_i keyword
      exact keyword
    · rename_i keyword
      split
      · rename_i truth
        exact truth
      · rename_i truth
        exact ⟨h, keyword, operator, not_or.mp truth⟩

namespace Lexeme

variable {vocabulary : Vocabulary} {cs rest : List Char} {lexeme : Lexeme}

/-- A lexeme that is the text of a token is one that a source can give it. -/
def Written (vocabulary : Vocabulary) (lexeme : Lexeme) : Prop :=
  ∀ kind value, lexeme.form = .content kind value → vocabulary.Writes kind value

/-- A number without a point consists of digits. -/
theorem isDigit_of_mem_spanNumber (point : '.' ∉ (spanNumber cs).1) :
    ∀ c ∈ (spanNumber cs).1, Text.isDigit c = true := by
  unfold spanNumber at point ⊢
  split at point
  · simp at point
  · exact fun c member => List.mem_takeWhile_imp member

theorem written_of_scanNumber (h : scanNumber cs = .ok (lexeme, rest)) :
    lexeme.Written vocabulary := by
  obtain ⟨spanned, -, form⟩ := scanNumber_eq_ok.mp h
  have digits := @isDigit_of_mem_spanNumber cs
  rw [spanned] at digits
  intro kind value same
  rw [form] at same
  cases same
  split
  · trivial
  · rename_i point
    intro c member
    rw [String.toList_ofList] at member
    exact digits point c member

theorem isWord_run {c : Char} {tail : List Char} (h : isWordStart c = true) :
    IsWord (String.ofList ((c :: tail).takeWhile isWordPart)) := by
  have part : isWordPart c = true := by simp [isWordPart, h]
  refine ⟨c, tail.takeWhile isWordPart, ?_, h, fun d member => List.mem_takeWhile_imp member⟩
  rw [String.toList_ofList, List.takeWhile_cons, if_pos part]

theorem written_of_scanPunctuation (h : scanPunctuation cs = some (lexeme, rest)) :
    lexeme.Written vocabulary := by
  have signs : ∀ entry ∈ punctuation, entry.2 = .operator ∨ entry.2 = .symbol := by decide
  obtain ⟨kind, member, form⟩ := scanPunctuation_eq_some h
  intro _ _ same
  rw [form] at same
  cases same
  obtain rfl | rfl := signs _ member
  · exact .inr ⟨lexeme.text, member, rfl⟩
  · exact ⟨lexeme.text, member, rfl⟩

theorem written_of_scan (h : scan vocabulary cs = .ok (lexeme, rest)) :
    lexeme.Written vocabulary := by
  cases scanned_of_scan h with
  | comment _ ran | lineBreak _ ran | blank _ ran =>
    cases ran
    intro kind value same
    cases same
  | word start form ran =>
    cases ran
    cases form
    rintro _ _ ⟨⟩
    exact vocabulary.writes_classify (isWord_run start)
  | number _ read => exact written_of_scanNumber read
  | literal read =>
    rintro _ _ ⟨⟩
    trivial
  | punctuation _ _ found => exact written_of_scanPunctuation found

end Lexeme

namespace Layout

/-- The kinds of tokens that stand for layout. -/
def kinds : List Token.Kind := [.indent, .dedent, .newline]

theorem kinds_of_reindent {indentation : List Char} {closed : Bool} {blocks next : List (List Char)}
    {due : List Token.Kind} (h : reindent indentation closed blocks = some (due, next)) :
    ∀ kind ∈ due, kind ∈ kinds := by
  induction blocks generalizing closed due next with
  | nil =>
    unfold reindent at h
    split at h
    · cases h
      decide
    · split at h
      · cases h
      · cases h
        decide
  | cons block outer ih =>
    unfold reindent at h
    split at h
    · cases h
      decide
    · split at h
      · split at h
        · cases h
        · cases h
          decide
      · split at h
        · obtain ⟨⟨rest, after⟩, inner, same⟩ := Option.map_eq_some_iff.mp h
          cases same
          exact List.forall_mem_cons.mpr ⟨by decide, ih inner⟩
        · cases h

theorem kinds_of_settle {layout after : Layout} {due : List Token.Kind}
    (h : layout.settle = .ok (due, after)) : ∀ kind ∈ due, kind ∈ kinds := by
  unfold settle at h
  split at h
  · split at h
    · rename_i reindented
      cases h
      exact kinds_of_reindent reindented
    · cases h
  · cases h
    simp

theorem kinds_of_read {layout after : Layout} {lexeme : Lexeme} {due : List Token.Kind}
    (h : layout.read lexeme = .ok (due, after)) : ∀ kind ∈ due, kind ∈ kinds := by
  unfold read at h
  split at h
  · cases h
    simp
  · cases h
    simp
  · cases h
    simp
  · obtain ⟨⟨due, after⟩, settled, h⟩ := bind_eq_ok.mp h
    cases h
    exact kinds_of_settle settled

end Layout

/-- A token before the end of a source. -/
def Token.Written (vocabulary : Vocabulary) (token : Token) : Prop :=
  vocabulary.Writes token.kind token.value ∨
  token.kind ∈ Layout.kinds ∧ token.value = Token.layoutValue token.kind

theorem Token.written_ofLexeme {vocabulary : Vocabulary} (file : String) (offset : Nat)
    {due : List Token.Kind} {lexeme : Lexeme} (hk : ∀ kind ∈ due, kind ∈ Layout.kinds)
    (hl : lexeme.Written vocabulary) :
    ∀ token ∈ ofLexeme file offset due lexeme, token.Written vocabulary := by
  refine List.forall_mem_append.mpr ⟨?_, ?_⟩
  · intro token member
    obtain ⟨kind, hm, rfl⟩ := List.mem_map.mp member
    exact .inr ⟨hk kind hm, rfl⟩
  · split
    · rename_i kind value form
      exact List.forall_mem_singleton.mpr (.inl (hl kind value form))
    · simp

theorem tokenizeFrom_eq_ok {vocabulary : Vocabulary} {file : String} {offset : Nat}
    {layout : Layout} {tokens result : Array Token} {cs : List Char}
    (h : tokenizeFrom vocabulary file offset layout tokens cs = .ok result) :
    ∃ content stop, result.toList = tokens.toList ++ content ++ [stop] ∧ stop.kind = .eof ∧
      stop.value = "" ∧ ∀ token ∈ content, token.Written vocabulary := by
  fun_induction tokenizeFrom vocabulary file offset layout tokens cs with
  | case1 offset layout tokens =>
    cases h
    exact ⟨[], .spanning file offset offset .eof "", by simp, rfl, rfl, by simp⟩
  | case2 => cases h
  | case3 => cases h
  | case4 offset layout tokens c tail lexeme rest scanned kinds next read _ ih =>
    obtain ⟨content, stop, same, ends, empty, written⟩ := ih h
    have first := Token.written_ofLexeme file offset (Layout.kinds_of_read read)
      (Lexeme.written_of_scan scanned)
    refine ⟨Token.ofLexeme file offset kinds lexeme ++ content, stop, ?_, ends, empty,
      List.forall_mem_append.mpr ⟨first, written⟩⟩
    rw [same]
    simp

/-- A stream of tokens has its content before the end of the source, and nothing after it. -/
theorem tokenize_eq_ok {vocabulary : Vocabulary} {source file : String} {tokens : Array Token}
    (h : tokenize source file vocabulary = .ok tokens) :
    ∃ content stop, tokens.toList = content ++ [stop] ∧ stop.kind = .eof ∧ stop.value = "" ∧
      ∀ token ∈ content, token.Written vocabulary := by
  obtain ⟨content, stop, same, rest⟩ := tokenizeFrom_eq_ok h
  exact ⟨content, stop, by simpa using same, rest⟩

end PseudoLang
