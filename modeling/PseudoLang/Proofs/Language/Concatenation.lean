import PseudoLang.Proofs.Grammar.Balance
import PseudoLang.Proofs.Language.Invariants
import PseudoLang.Proofs.Language.Items
import PseudoLang.Proofs.Token.Concatenation

/-!
Programs one after the other. A source that reads leaves no block and no bracket open, so that
another one can begin on the line after it: the program of both has the entries and the procedures
of the first and then those of the second (`readSource_append`).
-/

namespace PseudoLang

open Grammar Grammar.Language

/-! ## Nothing is left open -/

/-- The tokens that a block begins and ends with. -/
def indentation : Delimiters := ⟨["indent"], ["dedent"]⟩

def brackets : Delimiters := ⟨["(", "[", "\x7b"], [")", "]", "\x7d"]⟩

theorem balanced_indentation : table.Balanced indentation := by decide

theorem balanced_brackets : table.Balanced brackets := by decide

theorem balances_of_file {delimiters : Delimiters} {terminals : List Terminal} {tree : SyntaxTree}
    (balanced : table.Balanced delimiters) (apart : delimiters.Apart)
    (derived : Derives table maxDepth (rule "file") terminals tree) :
    delimiters.Balances terminals :=
  (balancing_derives balanced apart maxDepth).balances rfl derived

theorem countKind_eq_countP {kind : Token.Kind} {name : String} {tokens : List Token}
    (h : ∀ token ∈ tokens, token.typeName = name ↔ token.kind = kind) :
    countKind kind tokens = (tokens.map Token.terminal).countP (·.1 ∈ [name]) := by
  rw [countKind, List.count, List.countP_map, List.countP_map]
  apply List.countP_congr
  intro token member
  simp [Token.terminal, h token member]

theorem keywords_ne_brackets : ∀ word ∈ Vocabulary.language.keywords,
    word ∉ brackets.opening ∧ word ∉ brackets.closing := by
  decide +kernel

/-- Brackets are told by the names of their tokens. -/
theorem countBracket_eq_count {token : Token} (h : token.Written .language) (depth : Nat) :
    Layout.countBracket depth token.kind token.value = brackets.count depth token.typeName := by
  obtain ⟨kind, value, span⟩ := token
  cases kind with
  | keyword =>
    obtain word | ⟨layout, -⟩ := h
    · obtain ⟨ho, hc⟩ := keywords_ne_brackets value word
      exact (Delimiters.count_of_other ho hc).symm
    · exact absurd layout (by simp [Layout.kinds])
  | symbol =>
    simp only [Token.typeName, Token.typeNameOf]
    unfold Layout.countBracket
    split <;> simp_all [Delimiters.count, brackets]
  | _ => rfl

theorem bracketsAfter_eq_level {tokens : List Token} (h : ∀ token ∈ tokens, token.Written .language)
    (depth : Nat) :
    bracketsAfter depth tokens = brackets.level depth (tokens.map Token.terminal) := by
  induction tokens generalizing depth with
  | nil => rfl
  | cons token tokens ih =>
    obtain ⟨here, rest⟩ := List.forall_mem_cons.mp h
    rw [bracketsAfter_cons, countBracket_eq_count here, ih rest]
    rfl

/-- The tokens of a file close every block and every bracket. -/
theorem closed_of_file {content : List Token} {tree : SyntaxTree}
    (written : ∀ token ∈ content, token.Written .language)
    (derived : Derives table maxDepth (rule "file") (content.map Token.terminal) tree) :
    countKind .indent content = countKind .dedent content ∧ bracketsAfter 0 content = 0 := by
  have blocks := (balances_of_file balanced_indentation (by decide) derived).countP_eq (by decide)
  have level := balances_of_file balanced_brackets (by decide) derived 0
  have indents : ∀ token ∈ content, token.typeName = "indent" ↔ token.kind = .indent :=
    fun token member => typeName_eq_iff (.inr (written token member)) .indent (by decide)
  have dedents : ∀ token ∈ content, token.typeName = "dedent" ↔ token.kind = .dedent :=
    fun token member => typeName_eq_iff (.inr (written token member)) .dedent (by decide)
  constructor
  · rw [countKind_eq_countP indents, countKind_eq_countP dedents]
    exact blocks.symm
  · rw [bracketsAfter_eq_level written, level]

/-! ## Programs one after the other -/

/-- The parts of one program and then those of another. -/
def Program.append (program more : Program) : Program :=
  ⟨program.entries ++ more.entries, program.procedures ++ more.procedures⟩

instance : Append Program := ⟨Program.append⟩

namespace Program

theorem append_def (program more : Program) : program ++ more =
    ⟨program.entries ++ more.entries, program.procedures ++ more.procedures⟩ := rfl

theorem append_nil (program : Program) : program ++ (⟨[], []⟩ : Program) = program := by
  rw [append_def, List.append_nil, List.append_nil]

/-- What an item adds to a program comes after what is there. -/
theorem add_append (before program : Program) (tree : SyntaxTree) :
    (before ++ program).add tree = (program.add tree).map (before ++ ·) := by
  cases tree with
  | tagged tag value =>
    simp only [add]
    split
    · cases Block.ofEntry value with
      | error cause => rfl
      | ok block =>
        refine congrArg Except.ok ?_
        simp only [append_def, List.append_assoc]
    · cases Procedure.ofTree value with
      | error cause => rfl
      | ok procedure =>
        refine congrArg Except.ok ?_
        simp only [append_def, List.append_assoc]
    · rfl
    · rfl
  | _ => rfl

theorem foldlM_add_append (before : Program) {trees : List SyntaxTree} :
    ∀ {program all : Program}, trees.foldlM add program = .ok all →
      trees.foldlM add (before ++ program) = .ok (before ++ all) := by
  induction trees with
  | nil =>
    rintro program _ ⟨⟩
    rfl
  | cons tree trees ih =>
    intro program all h
    rw [List.foldlM_cons] at h ⊢
    obtain ⟨next, added, h⟩ := bind_eq_ok.mp h
    rw [add_append, added]
    exact ih h

theorem ofTree_eq_ok {trees : List SyntaxTree} {program : Program} :
    ofTree (.seq trees) = .ok program ↔
      SyntaxTree.heightOfAll trees < maxTreeDepth ∧
        trees.foldlM add ⟨[], []⟩ = .ok program := by
  have depth : (SyntaxTree.seq trees).depth = SyntaxTree.heightOfAll trees + 1 := by
    rw [SyntaxTree.depth_eq_height, SyntaxTree.height]
  by_cases deep : maxTreeDepth < (SyntaxTree.seq trees).depth
  · have not_less : ¬ SyntaxTree.heightOfAll trees < maxTreeDepth := by omega
    rw [ofTree, if_pos deep]
    constructor
    · rintro ⟨⟩
    · rintro ⟨less, -⟩
      exact absurd less not_less
  · have less : SyntaxTree.heightOfAll trees < maxTreeDepth := by omega
    rw [ofTree, if_neg deep]
    exact (and_iff_right less).symm

theorem foldlM_add_newlines {gap : List SyntaxTree}
    (breaks : ∀ tree ∈ gap, ∃ value, tree = .tagged "newline" value) (program : Program) :
    gap.foldlM add program = .ok program := by
  induction gap with
  | nil => rfl
  | cons tree gap ih =>
    obtain ⟨⟨value, rfl⟩, rest⟩ := List.forall_mem_cons.mp breaks
    exact ih rest

/-- The program of the items of two files, where the line breaks between them do not count. -/
theorem ofTree_append {trees gap more : List SyntaxTree} {first second : Program}
    (hf : ofTree (.seq trees) = .ok first) (hs : ofTree (.seq more) = .ok second)
    (breaks : ∀ tree ∈ gap, ∃ value, tree = .tagged "newline" value)
    (shallow : SyntaxTree.heightOfAll gap < maxTreeDepth) :
    ofTree (.seq (trees ++ gap ++ more)) = .ok (first ++ second) := by
  obtain ⟨low, added⟩ := ofTree_eq_ok.mp hf
  obtain ⟨low', added'⟩ := ofTree_eq_ok.mp hs
  refine ofTree_eq_ok.mpr ⟨?_, ?_⟩
  · rw [SyntaxTree.heightOfAll_append, SyntaxTree.heightOfAll_append]
    omega
  · have rest := foldlM_add_append first added'
    rw [append_nil] at rest
    rw [List.foldlM_append, List.foldlM_append, added, ok_bind, foldlM_add_newlines breaks,
      ok_bind, rest]

end Program

/-! ## Sources one after the other -/

/-- The items of a file are derived from the tokens before the place where reading them stops. -/
theorem derives_of_items (tokens : Array Token) (file : String) :
    Parse.Ensures Parser.AnyHalt
      (fun result => ∃ terminals, (languageParser tokens file).Spans 0 result.1 terminals ∧
        Derives table maxDepth (rule "file") terminals (.seq result.2))
      (languageParser tokens file).items := by
  have evaluates := Parser.derives_of_evaluateWithin (languageParser tokens file) (maxDepth - 2)
  apply (Parser.ensures_repetition (Parser.roundsTo_single evaluates fileItem).moving 0 []).mono
  rintro ⟨stop, _⟩ ⟨terminals, trees, spans, rounds, same⟩
  exact ⟨terminals, spans, _, _, rfl, trees, congrArg _ same, rounds⟩

/-- What is known of a source that parses. -/
theorem items_of_parse {source file other : String} {tokens : Array Token} {tree : SyntaxTree}
    (ht : tokenize source file = .ok tokens) (hp : parse tokens other = .ok tree) :
    ∃ content last trees, tokens.toList = content ++ [last] ∧ last.kind = .eof ∧
      tree = .seq trees ∧
      ((languageParser tokens other).items.runFrom fileContext).1 = .ok (content.length, trees) ∧
      countKind .indent content = countKind .dedent content ∧ bracketsAfter 0 content = 0 := by
  obtain ⟨content, last, whole, ends, empty, written⟩ := tokenize_eq_ok ht
  obtain ⟨stop, trees, ran, rfl, stops⟩ := parse_eq_ok.mp hp
  have derived := derives_of_items tokens other fileContext
  rw [ran] at derived
  obtain ⟨terminals, spans, derived⟩ := derived
  obtain ⟨rfl, rfl, -⟩ := content_of_spans whole ends empty written spans derived stops
  exact ⟨content, last, trees, whole, ends, rfl, ran, closed_of_file written derived⟩

/-- What the grammar sees of tokens is in their spelling. -/
theorem terminal_of_spelling {token other : Option Token}
    (h : token.map Token.spelling = other.map Token.spelling) :
    token.map Token.terminal = other.map Token.terminal := by
  have same := congrArg (Option.map fun spelling : Token.Kind × String =>
    (Token.typeNameOf spelling.1 spelling.2, spelling.2)) h
  rwa [Option.map_map, Option.map_map] at same

/-- The tokens of two sources, with a line break between them or none. -/
structure Joins (content : List Token) (gap : List (Token.Kind × String))
    (second all : Array Token) : Prop where
  breaks : gap = [] ∨ gap = [(.newline, "\n")]
  spelled : all.toList.map Token.spelling =
    content.map Token.spelling ++ (gap ++ second.toList.map Token.spelling)

namespace Joins

variable {first second all : Array Token} {content : List Token} {last : Token}
  {gap : List (Token.Kind × String)} {i : Nat}

theorem before (h : Joins content gap second all) (inside : i < content.length) :
    all[i]?.map Token.spelling = content[i]?.map Token.spelling := by
  rw [← Array.getElem?_toList, ← List.getElem?_map, h.spelled,
    List.getElem?_append_left (by simpa using inside), List.getElem?_map]

theorem between (h : Joins content gap second all) (inside : i < gap.length) :
    all[content.length + i]?.map Token.spelling = gap[i]? := by
  rw [← Array.getElem?_toList, ← List.getElem?_map, h.spelled,
    List.getElem?_append_right (by simp), List.length_map, Nat.add_sub_cancel_left,
    List.getElem?_append_left inside]

theorem after (h : Joins content gap second all) (i : Nat) :
    all[content.length + gap.length + i]?.map Token.spelling = second[i]?.map Token.spelling := by
  have length : (content.map Token.spelling ++ gap).length = content.length + gap.length := by
    simp
  rw [← Array.getElem?_toList, ← List.getElem?_map, h.spelled, ← List.append_assoc,
    List.getElem?_append_right (by omega), length, Nat.add_sub_cancel_left, List.getElem?_map,
    Array.getElem?_toList]

theorem size (h : Joins content gap second all) :
    all.size = content.length + gap.length + second.size := by
  have length := congrArg List.length h.spelled
  simp only [List.length_map, List.length_append, Array.length_toList] at length
  omega

theorem begins (h : Joins content gap second all) (whole : first.toList = content ++ [last])
    (ends : last.kind = .eof) (nonempty : 0 < second.size) :
    Begins first all content.length := by
  have size : first.size = content.length + 1 := by
    simpa using congrArg List.length whole
  have all_size := h.size
  refine ⟨size, by omega, fun i inside => terminal_of_spelling ?_, fun token here => ?_⟩
  · rw [h.before inside, ← Array.getElem?_toList, whole, List.getElem?_append_left inside]
  · rw [← Array.getElem?_toList, whole, List.getElem?_concat_length] at here
    cases here
    rw [Token.typeName, ends, Token.typeNameOf, endKind]

/-- The line break between two sources is an item of its own. -/
theorem rounds (h : Joins content gap second all) (file : String) :
    ∃ trees, Parser.Rounds (languageParser all file).itemRound content.length trees
      (content.length + gap.length) ∧
      (∀ tree ∈ trees, ∃ value, tree = .tagged "newline" value) ∧
      SyntaxTree.heightOfAll trees < Program.maxTreeDepth := by
  obtain rfl | rfl := h.breaks
  · exact ⟨[], .nil _, by simp, by simp [SyntaxTree.heightOfAll, Program.maxTreeDepth]⟩
  · have here := h.between (i := 0) (by simp)
    obtain ⟨token, here, spelled⟩ := Option.map_eq_some_iff.mp here
    obtain ⟨kind, value⟩ := Prod.mk.inj spelled
    have named : token.typeName = "newline" := by
      rw [Token.typeName, kind, Token.typeNameOf]
    refine ⟨[.tagged "newline" (.token "newline" token.value)], ?_, by simp, ?_⟩
    · have forward : content.length < content.length + 1 := by omega
      exact .one forward (returns_round forward (returns_newline here named (maxDepth - 6)))
    · simp [SyntaxTree.heightOfAll, SyntaxTree.height, Program.maxTreeDepth]

end Joins

section

variable {a b file other : String} {first second : Array Token} {tree more : SyntaxTree}

/-- A source after another one parses to the items of both, with at most line breaks between
them. -/
theorem parse_append (ha : tokenize a file = .ok first) (hp : parse first file = .ok tree)
    (hb : tokenize b other = .ok second) (hq : parse second other = .ok more)
    (front : ∀ c ∈ b.toList.head?, Lexeme.isBlank c = false) (third : String) :
    ∃ tokens trees gap items, tokenize (a ++ "\n" ++ b) third = .ok tokens ∧
      parse tokens third = .ok (.seq (trees ++ gap ++ items)) ∧
      tree = .seq trees ∧ more = .seq items ∧
      (∀ between ∈ gap, ∃ value, between = .tagged "newline" value) ∧
      SyntaxTree.heightOfAll gap < Program.maxTreeDepth := by
  obtain ⟨content, last, trees, whole, ends, rfl, ran, blocks, brackets⟩ := items_of_parse ha hp
  obtain ⟨stop, items, ran', rfl, stops⟩ := parse_eq_ok.mp hq
  obtain ⟨all, gap, tokenized, breaks, spelled⟩ :=
    tokenize_lines ha hb whole blocks brackets front third
  rw [List.append_assoc] at spelled
  have joins : Joins content gap second all := ⟨breaks, spelled⟩
  have nonempty : 0 < second.size := by
    obtain ⟨content', last', whole', -⟩ := tokenize_eq_ok hb
    have length : second.size = content'.length + 1 := by
      simpa using congrArg List.length whole'
    omega
  obtain ⟨between, rounds, newlines, shallow⟩ := joins.rounds third
  have size := joins.size
  have returns := returns_items (joins.begins whole ends nonempty) ran rounds
    (fun i => (terminal_of_spelling (joins.after i)).symm) (by omega) ran'
  refine ⟨all, trees, between, items, tokenized, ?_, rfl, rfl, newlines, shallow⟩
  refine parse_eq_ok.mpr ⟨_, _, returns.run fileContext, rfl, fun token here => ?_⟩
  have same := joins.after stop
  rw [here, Option.map_some] at same
  obtain ⟨final, here', spelling⟩ := Option.map_eq_some_iff.mp same.symm
  rw [← stops final here']
  exact (congrArg Prod.fst spelling).symm

end

/-- Programs concatenate: on the line after a source that reads, another source that reads, and
that begins with no blank, adds its entries and its procedures. -/
theorem readSource_append {a b file other : String} {p q : Program}
    (ha : readSource a file = .ok p) (hb : readSource b other = .ok q)
    (front : ∀ c ∈ b.toList.head?, c ≠ ' ' ∧ c ≠ '\t') (third : String) :
    ∃ r, readSource (a ++ "\n" ++ b) third = .ok r ∧
      r.entries = p.entries ++ q.entries ∧ r.procedures = p.procedures ++ q.procedures := by
  obtain ⟨first, tree, tokenized, parsed, made⟩ := readSource_eq_ok.mp ha
  obtain ⟨second, more, tokenized', parsed', made'⟩ := readSource_eq_ok.mp hb
  have unindented : ∀ c ∈ b.toList.head?, Lexeme.isBlank c = false := by
    intro c member
    obtain ⟨space, tab⟩ := front c member
    simp [Lexeme.isBlank, space, tab]
  obtain ⟨all, trees, gap, items, both, parses, rfl, rfl, newlines, shallow⟩ :=
    parse_append tokenized parsed tokenized' parsed' unindented third
  have program := Program.ofTree_append made made' newlines shallow
  exact ⟨p ++ q, readSource_eq_ok.mpr ⟨all, _, both, parses, program⟩, rfl, rfl⟩

/-- An entry whose last line is the deepest one. -/
def entrySource : String := "start\n\tif n < 2 then\n\t\tset a = [n]\n\tendif\nend // done"

/-- A procedure after an empty line. -/
def procedureSource : String := "\nf(num x)\n\toutput x\nreturn\n"

theorem readSource_append_entry_procedure : ∃ p q : Program,
    readSource entrySource = .ok p ∧ readSource procedureSource = .ok q ∧
    ∃ r, readSource (entrySource ++ "\n" ++ procedureSource) = .ok r ∧
      r.entries = p.entries ++ q.entries ∧ r.procedures = p.procedures ++ q.procedures := by
  have entry : (readSource entrySource).isOk = true := by decide +kernel
  have procedure : (readSource procedureSource).isOk = true := by decide +kernel
  have first : procedureSource.toList.head? = some '\n' := by decide +kernel
  have front : ∀ c ∈ procedureSource.toList.head?, c ≠ ' ' ∧ c ≠ '\t' := by simp [first]
  obtain ⟨p, ha⟩ := exists_of_isOk entry
  obtain ⟨q, hb⟩ := exists_of_isOk procedure
  exact ⟨p, q, ha, hb, readSource_append ha hb front _⟩

end PseudoLang
