import PseudoLang.Proofs.Token.Partition

/-!
String literals. Between its quotes a literal consists of parts, each of which stands for one
character (`StringLiteral.Part`), and a text begins with at most one literal
(`StringLiteral.text_unique`). Where a source goes on with a quote, the literal that begins there is
a token; if none does, there is an error (`literal_exact`). Every string can be written as a literal
(`tokenize_quote`).
-/

namespace PseudoLang

open Text (byteCount hexValue?)

/-- A digit of a number in hexadecimal notation. -/
abbrev HexDigit := { c : Char // (hexValue? c).isSome = true }

def HexDigit.value (digit : HexDigit) : Nat := (hexValue? digit.1).get digit.2

theorem HexDigit.value_lt (digit : HexDigit) : digit.value < 16 := by
  suffices small : ∀ n, hexValue? digit.1 = some n → n < 16 from
    small digit.value (Option.some_get digit.2).symm
  intro n found
  have bound {last : Char} (h : digit.1 ≤ last) : digit.1.toNat ≤ last.toNat := h
  unfold hexValue? at found
  split at found
  case isTrue range =>
    have : digit.1.toNat ≤ 57 := bound range.2
    obtain rfl : digit.1.toNat - 48 = n := Option.some.inj found
    omega
  split at found
  case isTrue range =>
    have : digit.1.toNat ≤ 102 := bound range.2
    obtain rfl : digit.1.toNat - 97 + 10 = n := Option.some.inj found
    omega
  split at found
  case isTrue range =>
    have : digit.1.toNat ≤ 70 := bound range.2
    obtain rfl : digit.1.toNat - 65 + 10 = n := Option.some.inj found
    omega
  case isFalse => cases found

namespace StringLiteral

/-- A part of a string literal. -/
inductive Part
  /-- A character that stands for itself. -/
  | plain (c : Char) (h : c ≠ '"' ∧ c ≠ '\\')
  /-- A backslash and a character. -/
  | escaped (c : Char) (h : c ≠ 'x')
  /-- A backslash, `x` and the number of a character. -/
  | coded (high low : HexDigit)

/-- The characters that have a letter to stand for them after a backslash. -/
def named : List (Char × Char) :=
  [('n', '\n'), ('r', '\r'), ('t', '\t'), ('a', '\x07'), ('b', '\x08'), ('s', ' ')]

namespace Part

/-- How the part is written. -/
def text : Part → List Char
  | plain c _ => [c]
  | escaped c _ => ['\\', c]
  | coded high low => ['\\', 'x', high.1, low.1]

/-- The character that the part stands for. A letter without a meaning of its own stands for
itself. -/
def value : Part → Char
  | plain c _ => c
  | escaped c _ => (named.lookup c).getD c
  | coded high low => Char.ofNat (high.value * 16 + low.value)

/-- Every number of two hexadecimal digits is the number of a character. -/
theorem toNat_value_coded (high low : HexDigit) :
    (coded high low).value.toNat = high.value * 16 + low.value := by
  have := high.value_lt
  have := low.value_lt
  have valid : (high.value * 16 + low.value).isValidChar := .inl (by omega)
  rw [value, Char.ofNat, dif_pos valid]
  rfl

end Part

/-- Parts between quotes. -/
def text (parts : List Part) : List Char := '"' :: (parts.flatMap Part.text ++ ['"'])

/-- The string that a literal stands for. -/
def value (parts : List Part) : List Char := parts.map Part.value

/-! ## One literal at most -/

theorem Part.text_append_ne (part : Part) (cs ds : List Char) : part.text ++ cs ≠ '"' :: ds := by
  cases part with
  | plain c h => simp [text, h.1]
  | escaped | coded => simp [text]

/-- The first part of a text can be told from the text. -/
theorem Part.text_append_inj {part other : Part} {cs ds : List Char}
    (h : part.text ++ cs = other.text ++ ds) : part = other ∧ cs = ds := by
  cases part with
  | plain c hc => cases other <;> simp_all [text]
  | escaped c hc => cases other <;> grind [text]
  | coded high low => cases other <;> grind [text]

theorem parts_unique {parts others : List Part} {after more : List Char}
    (h : parts.flatMap Part.text ++ '"' :: after = others.flatMap Part.text ++ '"' :: more) :
    parts = others ∧ after = more := by
  induction parts generalizing others with
  | nil =>
    cases others with
    | nil => simpa using h
    | cons other others =>
      rw [List.flatMap_cons, List.append_assoc] at h
      exact absurd h.symm (other.text_append_ne _ _)
  | cons part parts ih =>
    cases others with
    | nil =>
      rw [List.flatMap_cons, List.append_assoc] at h
      exact absurd h (part.text_append_ne _ _)
    | cons other others =>
      rw [List.flatMap_cons, List.flatMap_cons, List.append_assoc, List.append_assoc] at h
      obtain ⟨rfl, rest⟩ := Part.text_append_inj h
      obtain ⟨rfl, same⟩ := ih rest
      exact ⟨rfl, same⟩

theorem text_append (parts : List Part) (after : List Char) :
    text parts ++ after = '"' :: (parts.flatMap Part.text ++ '"' :: after) := by
  simp [text]

/-- A text begins with at most one literal, which has only one decomposition into parts. -/
theorem text_unique {parts others : List Part} {after more : List Char}
    (h : text parts ++ after = text others ++ more) : parts = others ∧ after = more := by
  rw [text_append, text_append] at h
  exact parts_unique (List.cons.inj h).2

end StringLiteral

open StringLiteral (Part)

/-! ## Reading literals -/

namespace Lexeme

theorem unescape_eq (c : Char) : unescape c = (StringLiteral.named.lookup c).getD c := by
  unfold unescape
  split
  case h_7 a b n r s t =>
    have absent : StringLiteral.named.lookup c = none := by
      rw [List.lookup_eq_none_iff]
      simpa [StringLiteral.named] using ⟨n, r, t, a, b, s⟩
    rw [absent]
    rfl
  all_goals rfl

/-- A part adds its character to the value. -/
theorem readLiteral_part (part : Part) (value text cs : List Char) :
    readLiteral value text (part.text ++ cs) =
      readLiteral (part.value :: value) (part.text.reverse ++ text) cs := by
  cases part with
  | plain c h => simp [Part.text, Part.value, readLiteral, h]
  | escaped c h =>
    simp [Part.text, Part.value, readLiteral, h, unescape_eq]
  | coded high low =>
    have first : hexValue? high.1 = some high.value := (Option.some_get high.2).symm
    have second : hexValue? low.1 = some low.value := (Option.some_get low.2).symm
    simp [Part.text, Part.value, readLiteral, first, second]

theorem readLiteral_parts (parts : List Part) (value text after : List Char) :
    readLiteral value text (parts.flatMap Part.text ++ '"' :: after) =
      .ok ⟨value.reverse ++ StringLiteral.value parts,
        text.reverse ++ (parts.flatMap Part.text ++ ['"']), after⟩ := by
  induction parts generalizing value text with
  | nil => simp [readLiteral, StringLiteral.value]
  | cons part parts ih =>
    rw [List.flatMap_cons, List.append_assoc, readLiteral_part, ih]
    simp [StringLiteral.value]

/-- What is read consists of parts. -/
theorem parts_of_readLiteral {value text cs : List Char} {literal : Literal}
    (h : readLiteral value text cs = .ok literal) :
    ∃ parts : List Part, cs = parts.flatMap Part.text ++ '"' :: literal.rest := by
  fun_induction readLiteral value text cs
  case case2 rest =>
    cases h
    exact ⟨[], rfl⟩
  case case4 high low rest h' l lowDigit highDigit ih =>
    obtain ⟨parts, rfl⟩ := ih h
    exact ⟨.coded ⟨high, by rw [highDigit]; rfl⟩ ⟨low, by rw [lowDigit]; rfl⟩ :: parts, rfl⟩
  case case7 c rest notHex notX ih =>
    obtain ⟨parts, rfl⟩ := ih h
    exact ⟨.escaped c notX :: parts, rfl⟩
  case case8 c rest quote alone hex escape ih =>
    have plain : c ≠ '\\' := by
      rintro rfl
      cases rest with
      | nil => exact alone rfl rfl
      | cons d rest => exact escape d rest rfl rfl
    obtain ⟨parts, rfl⟩ := ih h
    exact ⟨.plain c ⟨quote, plain⟩ :: parts, rfl⟩
  all_goals cases h

/-- What is wrong with a literal. -/
def literalFaults : List String :=
  ["unterminated string", "cannot escape end of input", "invalid hex sequence"]

theorem invalid_of_readLiteral {value text cs : List Char} {cause : Cause}
    (h : readLiteral value text cs = .error cause) :
    ∃ message ∈ literalFaults, cause = .invalidString message := by
  fun_induction readLiteral value text cs
  case case4 ih => exact ih h
  case case7 ih => exact ih h
  case case8 ih => exact ih h
  case case2 => cases h
  all_goals
    cases h
    exact ⟨_, by simp [literalFaults], rfl⟩

/-- The lexeme of a literal. -/
def ofParts (parts : List Part) : Lexeme :=
  ⟨.content .string (String.ofList (StringLiteral.value parts)), StringLiteral.text parts⟩

theorem scan_text (vocabulary : Vocabulary) (parts : List Part) (after : List Char) :
    scan vocabulary (StringLiteral.text parts ++ after) = .ok (ofParts parts, after) := by
  have read := readLiteral_parts parts [] ['"'] after
  rw [StringLiteral.text_append]
  rw [scan_literal, read]
  rfl

/-- A quote that no literal begins with is an error. -/
theorem scan_quote (vocabulary : Vocabulary) {tail : List Char}
    (absent : ∀ parts after, '"' :: tail ≠ StringLiteral.text parts ++ after) :
    ∃ message ∈ literalFaults, scan vocabulary ('"' :: tail) = .error (.invalidString message) := by
  rw [scan_literal]
  cases read : readLiteral [] ['"'] tail with
  | ok literal =>
    obtain ⟨parts, rfl⟩ := parts_of_readLiteral read
    exact absurd (StringLiteral.text_append parts literal.rest).symm (absent parts literal.rest)
  | error cause =>
    obtain ⟨message, known, rfl⟩ := invalid_of_readLiteral read
    exact ⟨message, known, rfl⟩

end Lexeme

/-! ## Every string as a literal -/

namespace StringLiteral

/-- A quote and a backslash are escaped, every other character is written as it is. -/
def Part.ofChar (c : Char) : Part :=
  if h : c = '"' ∨ c = '\\' then .escaped c (by rintro rfl; simp at h) else .plain c (not_or.mp h)

/-- A string in quotes, with a backslash before each quote and each backslash. -/
def quote (cs : List Char) : List Char :=
  '"' :: (cs.flatMap (fun c => if c = '"' ∨ c = '\\' then ['\\', c] else [c]) ++ ['"'])

theorem Part.value_ofChar (c : Char) : (ofChar c).value = c := by
  unfold ofChar
  split
  case isTrue h => obtain rfl | rfl := h <;> rfl
  case isFalse => rfl

theorem Part.text_ofChar (c : Char) :
    (ofChar c).text = if c = '"' ∨ c = '\\' then ['\\', c] else [c] := by
  unfold ofChar
  split <;> rfl

theorem value_ofChars (cs : List Char) : value (cs.map Part.ofChar) = cs := by
  rw [value, List.map_map]
  exact (List.map_congr_left fun c _ => Part.value_ofChar c).trans (List.map_id cs)

theorem text_ofChars (cs : List Char) : text (cs.map Part.ofChar) = quote cs := by
  rw [text, quote, List.flatMap_map]
  simp only [Part.text_ofChar]

end StringLiteral

/-! ## Literals in a source -/

namespace Lexing

variable {vocabulary : Vocabulary} {file source : String} {state : Lexing}

/-- Tokens that have been read stay. -/
theorem mem_of_finish {tokens : Array Token} (h : state.finish vocabulary file = .ok tokens) :
    ∀ token ∈ state.tokens, token ∈ tokens := by
  refine induction_of_finish (motive := fun state => ∀ token ∈ state.tokens, token ∈ tokens)
    ?_ ?_ h
  · rintro state - rfl token member
    exact Array.mem_push_of_mem _ member
  · intro state next taken ih token member
    obtain ⟨lexeme, rest, due, layout, -, -, rfl⟩ := step_eq_ok.mp taken
    refine ih token ?_
    rw [← Array.mem_toList_iff, Array.toList_appendList, List.mem_append, Array.mem_toList_iff]
    exact .inl member

/-- The token of a literal. -/
def literalToken (file : String) (offset : Nat) (parts : List Part) : Token :=
  .spanning file offset (offset + byteCount (StringLiteral.text parts)) .string
    (String.ofList (StringLiteral.value parts))

/-- What a state comes to from which these parts are read as a literal. -/
structure ReadsLiteral (vocabulary : Vocabulary) (file source : String) (state : Lexing)
    (parts : List Part) (after : List Char) : Prop where
  /-- No other literal stands here. -/
  unique : ∀ others more, state.rest = StringLiteral.text others ++ more →
    others = parts ∧ more = after
  /-- The literal is a token, after the layout due before it. -/
  token : ∀ due settled, state.layout.settle = .ok (due, settled) →
    state.step vocabulary file =
      .ok ⟨state.offset + byteCount (StringLiteral.text parts), settled,
        state.tokens ++
          (Token.ofLayout file state.offset due ++ [literalToken file state.offset parts]), after⟩
  /-- No layout is due but after a line break. -/
  calm : state.layout.pending = false → state.layout.settle = .ok ([], state.layout)
  /-- Nothing but the indentation of its line can be wrong. -/
  refused : ∀ cause, state.step vocabulary file = .error cause →
    state.layout.pending = true ∧ ∃ expected found, cause = .incompatibleDedent expected found
  /-- The token is one of those of the source. -/
  kept : ∀ tokens, tokenize source file vocabulary = .ok tokens →
    literalToken file state.offset parts ∈ tokens

theorem step_of_literal (vocabulary : Vocabulary) (file : String) {parts : List Part}
    {after : List Char} (here : state.rest = StringLiteral.text parts ++ after) :
    state.step vocabulary file =
      state.layout.settle >>= fun (due, settled) =>
        .ok ⟨state.offset + byteCount (StringLiteral.text parts), settled,
          state.tokens ++
            (Token.ofLayout file state.offset due ++ [literalToken file state.offset parts]),
          after⟩ := by
  have scanned := Lexeme.scan_text vocabulary parts after
  rw [← here] at scanned
  have form : (Lexeme.ofParts parts).form =
      .content .string (String.ofList (StringLiteral.value parts)) := rfl
  rw [step_of_settle file scanned form]
  simp only [Token.ofLexeme_of_content form]
  rfl

theorem readsLiteral (reached : Reached vocabulary file source state) {parts : List Part}
    {after : List Char} (here : state.rest = StringLiteral.text parts ++ after) :
    state.ReadsLiteral vocabulary file source parts after := by
  have step := step_of_literal vocabulary file here
  constructor
  case unique =>
    intro others more same
    exact StringLiteral.text_unique (same.symm.trans here)
  case token =>
    intro due settled same
    rw [step, same]
    rfl
  case calm =>
    intro calm
    simp [Layout.settle, calm]
  case refused =>
    intro cause failed
    rw [step] at failed
    unfold Layout.settle at failed
    split at failed
    · rename_i pending
      split at failed
      · cases failed
      · cases failed
        exact ⟨pending, _, _, rfl⟩
    · cases failed
  case kept =>
    intro tokens done
    rw [reached.finish_eq] at done
    cases same : state.layout.settle with
    | error cause =>
      rw [same] at step
      have some : state.rest ≠ [] := by simp [here, StringLiteral.text]
      rw [finish_of_error some step] at done
      cases done
    | ok result =>
      rw [same] at step
      rw [finish_of_step step] at done
      refine mem_of_finish done _ ?_
      rw [← Array.mem_toList_iff, Array.toList_appendList]
      simp

end Lexing

/-- A source that is a string in quotes is a literal with the value of the string. -/
theorem tokenize_quote (vocabulary : Vocabulary) (file value : String) :
    tokenize (String.ofList (StringLiteral.quote value.toList)) file vocabulary =
      .ok #[.spanning file 0 (byteCount (StringLiteral.quote value.toList)) .string value,
        .spanning file (byteCount (StringLiteral.quote value.toList))
          (byteCount (StringLiteral.quote value.toList)) .eof ""] := by
  have here : (Lexing.start (String.ofList (StringLiteral.quote value.toList))).rest =
      StringLiteral.text (value.toList.map Part.ofChar) ++ [] := by
    rw [List.append_nil, StringLiteral.text_ofChars, Lexing.start, String.toList_ofList]
  have step := Lexing.step_of_literal vocabulary file here
  rw [Lexing.Reached.start.finish_eq, Lexing.finish_of_step step, Lexing.finish_of_nil rfl]
  simp [Lexing.literalToken, StringLiteral.text_ofChars, StringLiteral.value_ofChars, Lexing.start,
    Token.ofLayout]

/-- A literal is read as what it says. Where a source goes on with a quote, the literal that begins
with it is a token with the value and the extent of the literal; if no literal begins with it, the
source is refused there. Every string is the value of a literal. -/
theorem literal_exact {vocabulary : Vocabulary} {file source : String} {state : Lexing}
    {tail : List Char} (reached : Lexing.Reached vocabulary file source state)
    (here : state.rest = '"' :: tail) :
    (∃ front, source.toList = front ++ '"' :: tail ∧ state.offset = byteCount front) ∧
    (∀ parts after, '"' :: tail = StringLiteral.text parts ++ after →
      state.ReadsLiteral vocabulary file source parts after) ∧
    ((∀ parts after, '"' :: tail ≠ StringLiteral.text parts ++ after) →
      ∃ message ∈ Lexeme.literalFaults, tokenize source file vocabulary =
        .error ⟨.invalidString message, state.offset.toUInt32, file⟩) ∧
    ∀ value : String,
      tokenize (String.ofList (StringLiteral.quote value.toList)) file vocabulary =
        .ok #[.spanning file 0 (byteCount (StringLiteral.quote value.toList)) .string value,
          .spanning file (byteCount (StringLiteral.quote value.toList))
            (byteCount (StringLiteral.quote value.toList)) .eof ""] := by
  refine ⟨?_, ?_, ?_, tokenize_quote vocabulary file⟩
  · obtain ⟨front, same, offset, -⟩ := reached.placed
    exact ⟨front, here ▸ same, offset⟩
  · intro parts after same
    exact Lexing.readsLiteral reached (here.trans same)
  · intro absent
    obtain ⟨message, known, failed⟩ := Lexeme.scan_quote vocabulary absent
    refine ⟨message, known, ?_⟩
    rw [reached.finish_eq]
    refine Lexing.finish_of_error (by simp [here]) ?_
    rw [Lexing.step, here, failed]
    rfl

theorem literal_exact_escapes :
    (∃ tokens, tokenize "\"\\x41é\\n\"+b" = .ok tokens ∧
      .spanning defaultFile 0 10 .string "Aé\n" ∈ tokens) ∧
    ∃ message, tokenize "\"\\x4" = .error ⟨.invalidString message, 0, defaultFile⟩ := by
  constructor
  · let parts : List Part :=
      [.coded ⟨'4', by decide⟩ ⟨'1', by decide⟩, .plain 'é' (by simp), .escaped 'n' (by simp)]
    have begun : Lexing.Reached .language defaultFile "\"\\x41é\\n\"+b" (.start _) := .start
    have read := (literal_exact begun (by rfl)).2.1 parts ['+', 'b'] rfl
    have found : (tokenize "\"\\x41é\\n\"+b").isOk = true := by decide +kernel
    cases done : tokenize "\"\\x41é\\n\"+b" with
    | error => simp [done, Except.isOk, Except.toBool] at found
    | ok tokens => exact ⟨tokens, rfl, read.kept tokens done⟩
  · have absent (parts : List Part) (after : List Char) :
        '"' :: ['\\', 'x', '4'] ≠ StringLiteral.text parts ++ after := by
      intro same
      have scanned := Lexeme.scan_text .language parts after
      rw [← same] at scanned
      cases scanned
    have begun : Lexing.Reached .language defaultFile "\"\\x4" (.start _) := .start
    obtain ⟨message, -, failed⟩ := (literal_exact begun (by rfl)).2.2.1 absent
    exact ⟨message, failed⟩

end PseudoLang
