import PseudoLang.Proofs.Token.Longest

/-!
Tokens partition their source. `Pieces` takes a text apart into pieces that are skipped and pieces
that are the text of a token; from it follows where the tokens stand and what is between them
(`Partitions`). Reading takes a source apart in this way, and always comes to an end
(`tokens_partition_source`).
-/

namespace PseudoLang

open Text (byteCount byteCount_nil byteCount_append)

/-! ## Offsets -/

namespace Token

/-- The offset of the first byte of a token. -/
def startOffset (token : Token) : Nat := token.span.start.offset.toNat

/-- The offset of the byte after a token. -/
def stopOffset (token : Token) : Nat := token.span.stop.offset.toNat

variable {file : String} {start stop : Nat} {kind : Kind} {value : String}

theorem startOffset_spanning (short : start < UInt32.size) :
    (spanning file start stop kind value).startOffset = start :=
  UInt32.toNat_ofNat_of_lt' short

theorem stopOffset_spanning (short : stop < UInt32.size) :
    (spanning file start stop kind value).stopOffset = stop :=
  UInt32.toNat_ofNat_of_lt' short

/-- Layout has no extent. -/
theorem offsets_of_ofLayout (short : start < UInt32.size) {due : List Kind} :
    ∀ token ∈ ofLayout file start due, token.startOffset = start ∧ token.stopOffset = start := by
  intro token member
  obtain ⟨kind, -, rfl⟩ := List.mem_map.mp member
  exact ⟨startOffset_spanning short, stopOffset_spanning short⟩

/-- A token with the text that it stands for, and what follows the text. -/
structure StandsFor (token : Token) (text after : List Char) : Prop where
  nonempty : text ≠ []
  value : token.kind ≠ .string → token.value = String.ofList text
  longest : Longest text after
  uncut : Uncut text after

end Token

/-! ## Pieces of a text -/

/-- The tokens of a text at an offset, piece by piece. -/
inductive Pieces (file : String) : Nat → List Char → List Token → Prop
  | stop {offset : Nat} : Pieces file offset [] [.spanning file offset offset .eof ""]
  | skipped {offset : Nat} {run after : List Char} {tokens : List Token} :
    IsSkipped run → Longest run after → Pieces file (offset + byteCount run) after tokens →
    Pieces file offset (run ++ after) tokens
  | content {offset : Nat} {text after : List Char} {tokens : List Token}
    {due : List Token.Kind} {kind : Token.Kind} {value : String} :
    (∀ kind ∈ due, kind ∈ Layout.kinds) →
    (Token.spanning file offset (offset + byteCount text) kind value).IsContent →
    (Token.spanning file offset (offset + byteCount text) kind value).StandsFor text after →
    Pieces file (offset + byteCount text) after tokens →
    Pieces file offset (text ++ after) (Token.ofLayout file offset due ++
      .spanning file offset (offset + byteCount text) kind value :: tokens)

namespace Pieces

variable {file : String} {offset : Nat} {cs : List Char} {tokens : List Token}

theorem within (h : Pieces file offset cs tokens) (short : offset + byteCount cs < UInt32.size) :
    ∀ token ∈ tokens, offset ≤ token.startOffset ∧ token.startOffset ≤ token.stopOffset ∧
      token.stopOffset ≤ offset + byteCount cs := by
  induction h with
  | stop =>
    rw [byteCount_nil, Nat.add_zero] at short ⊢
    intro token member
    rw [List.mem_singleton.mp member, Token.startOffset_spanning short,
      Token.stopOffset_spanning short]
    omega
  | skipped _ _ _ ih =>
    rw [byteCount_append] at short ⊢
    intro token member
    have := ih (by omega) token member
    omega
  | @content offset text after tokens due kind value _ _ _ _ ih =>
    rw [byteCount_append] at short ⊢
    intro token member
    rcases List.mem_append.mp member with layout | member
    · obtain ⟨start, stop⟩ := Token.offsets_of_ofLayout (by omega) token layout
      omega
    · rcases List.mem_cons.mp member with rfl | later
      · rw [Token.startOffset_spanning (by omega), Token.stopOffset_spanning (by omega)]
        omega
      · have := ih (by omega) token later
        omega

theorem ordered (h : Pieces file offset cs tokens) (short : offset + byteCount cs < UInt32.size) :
    tokens.Pairwise fun token next => token.stopOffset ≤ next.startOffset := by
  induction h with
  | stop => exact List.pairwise_singleton _ _
  | skipped _ _ _ ih =>
    rw [byteCount_append] at short
    exact ih (by omega)
  | @content offset text after tokens due kind value _ _ _ rest ih =>
    rw [byteCount_append] at short
    have inside := rest.within (by omega)
    have layout := @Token.offsets_of_ofLayout file offset (by omega) due
    have start := @Token.startOffset_spanning file offset (offset + byteCount text) kind value
      (by omega)
    have stop := @Token.stopOffset_spanning file offset (offset + byteCount text) kind value
      (by omega)
    rw [List.pairwise_append, List.pairwise_cons]
    refine ⟨List.pairwise_of_forall_mem_list ?_, ⟨?_, ih (by omega)⟩, ?_⟩
    · intro token here next there
      rw [(layout token here).2, (layout next there).1]
    · intro next later
      rw [stop]
      exact (inside next later).1
    · intro token here next there
      rw [(layout token here).2]
      rcases List.mem_cons.mp there with rfl | later
      · rw [start]
      · have := inside next later
        omega

/-- A token with a text stands for a piece. -/
theorem standsFor (h : Pieces file offset cs tokens)
    (short : offset + byteCount cs < UInt32.size) :
    ∀ token ∈ tokens, token.IsContent → ∃ before text after, cs = before ++ (text ++ after) ∧
      token.startOffset = offset + byteCount before ∧
      token.stopOffset = offset + byteCount before + byteCount text ∧
      token.StandsFor text after := by
  induction h with
  | stop =>
    intro token member content
    rw [List.mem_singleton.mp member] at content
    exact absurd rfl content.2
  | @skipped offset run after tokens _ _ _ ih =>
    rw [byteCount_append] at short
    intro token member content
    obtain ⟨before, text, after, rfl, start, stop, stands⟩ := ih (by omega) token member content
    refine ⟨run ++ before, text, after, by simp, ?_, ?_, stands⟩
    · rw [start, byteCount_append, Nat.add_assoc]
    · rw [stop, byteCount_append, ← Nat.add_assoc]
  | @content offset text after tokens due kind value kinds _ stands _ ih =>
    rw [byteCount_append] at short
    intro token member content
    rcases List.mem_append.mp member with layout | member
    · exact absurd (Token.kind_mem_of_ofLayout kinds token layout) content.1
    · rcases List.mem_cons.mp member with rfl | later
      · refine ⟨[], text, after, rfl, ?_, ?_, stands⟩
        · exact Token.startOffset_spanning (by omega)
        · exact Token.stopOffset_spanning (by omega)
      · obtain ⟨before, piece, after, rfl, start, stop, stands⟩ := ih (by omega) token later content
        refine ⟨text ++ before, piece, after, by simp, ?_, ?_, stands⟩
        · rw [start, byteCount_append, Nat.add_assoc]
        · rw [stop, byteCount_append, ← Nat.add_assoc]

/-- Every byte belongs to a token or to a piece that is skipped. -/
theorem covered (h : Pieces file offset cs tokens) (short : offset + byteCount cs < UInt32.size)
    {place : Nat} (low : offset ≤ place) (high : place < offset + byteCount cs) :
    (∃ token ∈ tokens, token.IsContent ∧ token.startOffset ≤ place ∧ place < token.stopOffset) ∨
    ∃ before run after, cs = before ++ (run ++ after) ∧ IsSkipped run ∧ Longest run after ∧
      offset + byteCount before ≤ place ∧ place < offset + byteCount before + byteCount run ∧
      ∀ token ∈ tokens, token.IsContent → token.stopOffset ≤ offset + byteCount before ∨
        offset + byteCount before + byteCount run ≤ token.startOffset := by
  induction h with
  | stop =>
    rw [byteCount_nil] at high
    omega
  | @skipped offset run after tokens skipped longest rest ih =>
    rw [byteCount_append] at short high
    by_cases here : place < offset + byteCount run
    · refine .inr ⟨[], run, after, rfl, skipped, longest, low, here, ?_⟩
      intro token member _
      exact .inr (rest.within (by omega) token member).1
    · obtain inside | ⟨before, piece, after, rfl, skipped, longest, start, stop, apart⟩ :=
        ih (by omega) (by omega) (by omega)
      · exact .inl inside
      · refine .inr ⟨run ++ before, piece, after, by simp, skipped, longest, ?_⟩
        rw [byteCount_append, ← Nat.add_assoc]
        exact ⟨start, stop, apart⟩
  | @content offset text after tokens due kind value kinds content _ rest ih =>
    rw [byteCount_append] at short high
    have start := @Token.startOffset_spanning file offset (offset + byteCount text) kind value
      (by omega)
    have stop := @Token.stopOffset_spanning file offset (offset + byteCount text) kind value
      (by omega)
    by_cases here : place < offset + byteCount text
    · refine .inl ⟨_, List.mem_append_right _ (.head _), content, ?_, ?_⟩
      · rw [start]
        exact low
      · rw [stop]
        exact here
    · obtain ⟨token, member, inside⟩ |
        ⟨before, piece, after, rfl, skipped, longest, low, high, apart⟩ :=
        ih (by omega) (by omega) (by omega)
      · exact .inl ⟨token, List.mem_append_right _ (.tail _ member), inside⟩
      · refine .inr ⟨text ++ before, piece, after, by simp, skipped, longest, ?_⟩
        rw [byteCount_append, ← Nat.add_assoc]
        refine ⟨low, high, ?_⟩
        intro token member isContent
        rcases List.mem_append.mp member with layout | member
        · exact absurd (Token.kind_mem_of_ofLayout kinds token layout) isContent.1
        · rcases List.mem_cons.mp member with rfl | later
          · rw [stop]
            omega
          · exact apart token later isContent

/-- Layout stands at the start of the token with a text that follows it. -/
theorem layout (h : Pieces file offset cs tokens) (short : offset + byteCount cs < UInt32.size)
    {before after : List Token} {token : Token} (same : tokens = before ++ token :: after)
    (layout : token.kind ∈ Layout.kinds) :
    ∃ gap next more, after = gap ++ next :: more ∧ (∀ other ∈ gap, other.kind ∈ Layout.kinds) ∧
      next.IsContent ∧ token.startOffset = next.startOffset ∧
      token.stopOffset = next.startOffset := by
  induction h generalizing before with
  | stop =>
    have member : token ∈ before ++ token :: after := by simp
    rw [← same, List.mem_singleton] at member
    rw [member] at layout
    have eof : Token.Kind.eof ∈ Layout.kinds := layout
    exact absurd eof (by decide)
  | @skipped offset run after tokens skipped longest rest ih =>
    rw [byteCount_append] at short
    exact ih (by omega) same
  | @content offset text rest tokens due kind value kinds content _ _ ih =>
    rw [byteCount_append] at short
    obtain ⟨others, rfl, tail⟩ | ⟨others, due_eq, tail⟩ := List.append_eq_append_iff.mp same
    · cases others with
      | nil =>
        obtain ⟨rfl, -⟩ := List.cons.inj tail
        exact absurd layout content.1
      | cons _ others =>
        obtain ⟨-, tail⟩ := List.cons.inj tail
        exact ih (by omega) tail
    · cases others with
      | nil =>
        obtain ⟨rfl, -⟩ := List.cons.inj tail
        exact absurd layout content.1
      | cons _ gap =>
        obtain ⟨rfl, after_eq⟩ := List.cons.inj tail
        have member (other : Token) (there : other ∈ token :: gap) :
            other ∈ Token.ofLayout file offset due := by
          rw [due_eq]
          exact List.mem_append_right before there
        obtain ⟨start, stop⟩ := Token.offsets_of_ofLayout (by omega) token (member _ (.head _))
        refine ⟨gap, _, tokens, after_eq, ?_, content, ?_, ?_⟩
        · intro other there
          exact Token.kind_mem_of_ofLayout kinds other (member _ (.tail _ there))
        · rw [start, Token.startOffset_spanning (by omega)]
        · rw [stop, Token.startOffset_spanning (by omega)]

/-- The end of a text is the last token, and the only one of its kind. -/
theorem last (h : Pieces file offset cs tokens) (short : offset + byteCount cs < UInt32.size) :
    ∃ content stop, tokens = content ++ [stop] ∧ stop.kind = .eof ∧
      stop.startOffset = offset + byteCount cs ∧ stop.stopOffset = offset + byteCount cs ∧
      ∀ token ∈ content, token.kind ≠ .eof := by
  induction h with
  | @stop offset =>
    rw [byteCount_nil, Nat.add_zero] at short ⊢
    exact ⟨[], _, rfl, rfl, Token.startOffset_spanning short, Token.stopOffset_spanning short,
      by simp⟩
  | skipped _ _ _ ih =>
    rw [byteCount_append, ← Nat.add_assoc] at short ⊢
    exact ih short
  | @content offset text after tokens due kind value kinds isContent _ _ ih =>
    rw [byteCount_append, ← Nat.add_assoc] at short ⊢
    obtain ⟨content, stop, rfl, eof, starts, stops, only⟩ := ih short
    refine ⟨Token.ofLayout file offset due ++
      .spanning file offset (offset + byteCount text) kind value :: content, stop, by simp, eof,
      starts, stops, ?_⟩
    refine List.forall_mem_append.mpr ⟨?_, List.forall_mem_cons.mpr ⟨isContent.2, only⟩⟩
    intro token there same
    have layout := Token.kind_mem_of_ofLayout kinds token there
    rw [same] at layout
    exact absurd layout (by decide)

end Pieces

/-! ## The partition -/

/-- How the tokens of a source cover it. -/
structure Partitions (tokens : List Token) (source : List Char) : Prop where
  /-- The tokens stand in the source, one after the other. -/
  within : ∀ token ∈ tokens, token.stopOffset ≤ byteCount source
  ordered : tokens.Pairwise fun token next => token.stopOffset ≤ next.startOffset
  /-- A token with a text stands for a piece of the source. -/
  standsFor : ∀ token ∈ tokens, token.IsContent → ∃ before text after,
    source = before ++ (text ++ after) ∧ token.startOffset = byteCount before ∧
    token.stopOffset = byteCount before + byteCount text ∧
    token.startOffset < token.stopOffset ∧ token.StandsFor text after
  /-- Any other byte belongs to a comment, to line breaks or to blanks between the tokens. -/
  skipped : ∀ place < byteCount source,
    (∀ token ∈ tokens, token.IsContent →
      ¬ (token.startOffset ≤ place ∧ place < token.stopOffset)) →
    ∃ before run after, source = before ++ (run ++ after) ∧ IsSkipped run ∧ Longest run after ∧
      byteCount before ≤ place ∧ place < byteCount before + byteCount run ∧
      ∀ token ∈ tokens, token.IsContent → token.stopOffset ≤ byteCount before ∨
        byteCount before + byteCount run ≤ token.startOffset
  /-- Layout stands at the start of the token with a text that follows it. -/
  layout : ∀ before token after, tokens = before ++ token :: after →
    token.kind ∈ Layout.kinds → ∃ gap next more, after = gap ++ next :: more ∧
      (∀ other ∈ gap, other.kind ∈ Layout.kinds) ∧ next.IsContent ∧
      token.startOffset = next.startOffset ∧ token.stopOffset = next.startOffset
  /-- The last token, and no other, is the end of the source. -/
  last : ∃ content stop, tokens = content ++ [stop] ∧ stop.kind = .eof ∧
    stop.startOffset = byteCount source ∧ stop.stopOffset = byteCount source ∧
    ∀ token ∈ content, token.kind ≠ .eof

theorem byteCount_pos {cs : List Char} (h : cs ≠ []) : 0 < byteCount cs :=
  lt_of_lt_of_le (List.length_pos_iff.mpr h) (Text.length_le_byteCount cs)

theorem Pieces.partitions {file : String} {source : List Char} {tokens : List Token}
    (h : Pieces file 0 source tokens) (short : byteCount source < UInt32.size) :
    Partitions tokens source := by
  have short : 0 + byteCount source < UInt32.size := by rwa [Nat.zero_add]
  refine ⟨?_, h.ordered short, ?_, ?_, ?_, ?_⟩
  · intro token member
    simpa using (h.within short token member).2.2
  · intro token member content
    obtain ⟨before, text, after, same, start, stop, stands⟩ :=
      h.standsFor short token member content
    have := byteCount_pos stands.nonempty
    exact ⟨before, text, after, same, by omega, by omega, by omega, stands⟩
  · intro place inside outside
    obtain ⟨token, member, content, here⟩ | skipped :=
      h.covered short (Nat.zero_le place) (by omega)
    · exact absurd here (outside token member content)
    · simpa using skipped
  · intro before token after same layout
    exact h.layout short same layout
  · simpa using h.last short

/-! ## Reading -/

/-- Comments, line breaks and blanks call for no layout. -/
theorem Layout.due_of_skipped {layout after : Layout} {lexeme : Lexeme} {due : List Token.Kind}
    (form : ∀ kind value, lexeme.form ≠ .content kind value)
    (h : layout.read lexeme = .ok (due, after)) : due = [] := by
  obtain ⟨-, none, -⟩ | ⟨-, none, -⟩ | ⟨-, none, -⟩ | ⟨kind, value, _, content, -⟩ :=
    Layout.read_cases h
  · exact none
  · exact none
  · exact none
  · exact absurd content (form kind value)

namespace Lexing

variable {vocabulary : Vocabulary} {file source : String} {state : Lexing} {tokens : Array Token}

theorem Reached.placed (h : Reached vocabulary file source state) :
    state.Placed source.toList file := by
  induction h with
  | start => exact .start source file
  | next _ taken ih => exact ih.step taken

/-- A state that ends the reading: nothing is left, or the next lexeme is an error. -/
def Ends (vocabulary : Vocabulary) (file : String) (state : Lexing)
    (result : Except Error (Array Token)) : Prop :=
  (state.rest = [] ∧
    result = .ok (state.tokens.push (.spanning file state.offset state.offset .eof ""))) ∨
  ∃ cause, state.rest ≠ [] ∧ state.step vocabulary file = .error cause ∧
    result = .error ⟨cause, state.offset.toUInt32, file⟩

/-- Reading comes to an end. -/
theorem Reached.ends (h : Reached vocabulary file source state) :
    ∃ last, Reached vocabulary file source last ∧
      last.Ends vocabulary file (tokenize source file vocabulary) := by
  induction state using Lexing.induction vocabulary file with
  | last state empty =>
    refine ⟨state, h, .inl ⟨empty, ?_⟩⟩
    rw [h.finish_eq, finish_of_nil empty]
  | stuck state cause some taken =>
    refine ⟨state, h, .inr ⟨cause, some, taken, ?_⟩⟩
    rw [h.finish_eq, finish_of_error some taken]
  | step state next taken ih => exact ih (.next h taken)

/-- What is left of a source falls into pieces. -/
theorem pieces_of_finish (h : state.finish vocabulary file = .ok tokens) :
    ∃ more, tokens.toList = state.tokens.toList ++ more ∧
      Pieces file state.offset state.rest more := by
  refine induction_of_finish (motive := fun state => ∃ more,
    tokens.toList = state.tokens.toList ++ more ∧ Pieces file state.offset state.rest more)
    ?_ ?_ h
  · intro state empty same
    refine ⟨_, by rw [same, Array.toList_push], ?_⟩
    rw [empty]
    exact .stop
  · intro state next taken ih
    obtain ⟨more, same, pieces⟩ := ih
    obtain ⟨lexeme, rest, due, layout, scanned, read, rfl⟩ := step_eq_ok.mp taken
    obtain ⟨nonempty, whole⟩ := Lexeme.append_of_scan scanned
    have longest := Lexeme.longest_of_scan scanned
    rw [← whole]
    obtain ⟨form, skipped⟩ | ⟨kind, value, form, -, spelled⟩ := Lexeme.purpose_of_scan scanned
    · have none := Layout.due_of_skipped form read
      rw [none, Token.ofLexeme_of_skipped form, Array.appendList_nil] at same
      exact ⟨more, same, .skipped skipped longest pieces⟩
    · rw [Token.ofLexeme_of_content form, Array.toList_appendList, List.append_assoc,
        List.append_assoc] at same
      refine ⟨_, same, .content (Layout.kinds_of_read read) ?_ ?_ pieces⟩
      · exact Vocabulary.isContent_of_writes (Lexeme.written_of_scan scanned kind value form)
      · exact ⟨nonempty, spelled, longest, Lexeme.uncut_of_scan scanned⟩

end Lexing

theorem partitions_of_tokenize {vocabulary : Vocabulary} {file source : String}
    {tokens : Array Token} (short : byteCount source.toList < UInt32.size)
    (h : tokenize source file vocabulary = .ok tokens) :
    Partitions tokens.toList source.toList := by
  have done : (Lexing.start source).finish vocabulary file = .ok tokens := h
  obtain ⟨more, same, pieces⟩ := Lexing.pieces_of_finish done
  rw [same]
  exact pieces.partitions short

/-- Tokens partition their source. The reading of a short source stands between two of its
characters at every step, and comes to an end; its tokens leave nothing of the source uncovered but
comments, line breaks and blanks. -/
theorem tokens_partition_source (vocabulary : Vocabulary) (file source : String)
    (short : byteCount source.toList < UInt32.size) :
    (∀ state, Lexing.Reached vocabulary file source state →
      state.offset ≤ byteCount source.toList ∧
      ∃ front, source.toList = front ++ state.rest ∧ state.offset = byteCount front) ∧
    (∃ last, Lexing.Reached vocabulary file source last ∧
      last.Ends vocabulary file (tokenize source file vocabulary)) ∧
    ∀ tokens, tokenize source file vocabulary = .ok tokens →
      Partitions tokens.toList source.toList := by
  refine ⟨fun state reached => ?_, Lexing.Reached.start.ends, fun tokens h => ?_⟩
  · obtain ⟨front, same, offset, -⟩ := reached.placed
    refine ⟨?_, front, same, offset⟩
    rw [offset, same, byteCount_append]
    exact Nat.le_add_right _ _
  · exact partitions_of_tokenize short h

/-- Lexemes of every class, some of them with nothing between. -/
def crowded : String := "a<=1.5// é\n\t[\"é\"/.5]"

theorem tokens_partition_source_crowded : byteCount crowded.toList < UInt32.size ∧
    ∃ tokens, tokenize crowded = .ok tokens ∧
      tokens.toList.map (fun token => (token.kind, token.startOffset, token.stopOffset)) =
        [(.name, 0, 1), (.operator, 1, 3), (.float, 3, 6), (.indent, 13, 13), (.symbol, 13, 14),
          (.string, 14, 18), (.operator, 18, 19), (.float, 19, 21), (.symbol, 21, 22),
          (.eof, 22, 22)] ∧
      Partitions tokens.toList crowded.toList := by
  have short : byteCount crowded.toList < UInt32.size := by decide +kernel
  have found : (match tokenize crowded with
      | .ok tokens =>
        tokens.toList.map (fun token => (token.kind, token.startOffset, token.stopOffset)) ==
          [(.name, 0, 1), (.operator, 1, 3), (.float, 3, 6), (.indent, 13, 13), (.symbol, 13, 14),
            (.string, 14, 18), (.operator, 18, 19), (.float, 19, 21), (.symbol, 21, 22),
            (.eof, 22, 22)]
      | .error _ => false) = true := by decide +kernel
  refine ⟨short, ?_⟩
  split at found
  · rename_i tokens h
    exact ⟨tokens, h, by simpa using found, (tokens_partition_source _ _ _ short).2.2 tokens h⟩
  · cases found

end PseudoLang
