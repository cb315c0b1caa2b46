import PseudoLang.Proofs.Language.Rendering.Programs
import PseudoLang.Proofs.Language.Soundness
import PseudoLang.Proofs.Token.Arrangement

/-!
What holds of every accepted program. That no block is empty comes from the tokens: a block begins
only before a token with a text, so that no block ends where it begins, while the rule of blocks
leaves everything between the two to choice.
-/

namespace PseudoLang

open Grammar Grammar.Language
open Sign (AllProper)

variable {n : Nat} {terminals : List Terminal} {tree : SyntaxTree}

/-! ## Blocks -/

/-- The tokens of a block with nothing in it. -/
def emptyBlock : List Terminal := [("indent", ""), ("dedent", "")]

/-- No block is without tokens. -/
def Filled (terminals : List Terminal) : Prop := ¬ emptyBlock <:+: terminals

theorem Filled.within {part whole : List Terminal} (h : Filled whole) (inside : part <:+: whole) :
    Filled part := fun empty => h (empty.trans inside)

theorem Filled.left {part more : List Terminal} (h : Filled (part ++ more)) : Filled part :=
  h.within (List.prefix_append part more).isInfix

theorem Filled.right {part more : List Terminal} (h : Filled (part ++ more)) : Filled more :=
  h.within (List.suffix_append part more).isInfix

/-- A block that contains something. -/
def Block.Occupied (block : Block) : Prop := block.declarations ≠ [] ∨ block.statements ≠ []

theorem emptyBlock_within (before after : List Terminal) {opening closing : String}
    (opens : Terminal.Genuine ("indent", opening)) (closes : Terminal.Genuine ("dedent", closing)) :
    emptyBlock <:+: before ++ ("indent", opening) :: ("dedent", closing) :: after := by
  have opening_text : opening = "" := opens.text (by decide)
  have closing_text : closing = "" := closes.text (by decide)
  rw [opening_text, closing_text]
  exact ⟨before, after, by simp [emptyBlock]⟩

/-- There are declarations, unless there are no tokens. -/
theorem gives_lines (h : Reading n (.optional (rule "declarations")) terminals tree)
    (filled : Filled terminals) :
    Gives (tree.part "mainbody" Declaration.ofLines) fun part =>
      (part.getD [] = [] → terminals = []) ∧
        ∀ line ∈ part.getD [], Sound Declaration.WellFormed Declaration.signs line := by
  obtain ⟨rfl, rfl⟩ | ⟨value, rfl, shaped⟩ := h.optional
  · exact .ok ⟨fun _ => rfl, by simp⟩
  · obtain ⟨_, rfl, parts⟩ := (shaped.body rfl).sequence
    obtain ⟨word, _, keyword, _, rfl, rfl, hw, listed, _, lines, _, rfl, rfl, hl, rfl, rfl⟩ := parts
    have each : ∀ trees, lines = .seq trees → Gives (trees.mapM Declaration.ofTree) fun lines =>
        lines.length = trees.length ∧
          ∀ line ∈ lines, Sound Declaration.WellFormed Declaration.signs line := by
      rintro trees rfl
      obtain ⟨_, same, all⟩ := hl.shaped.listed
      cases same
      exact .mapM fun line member => gives_declaration (all line member)
    obtain ⟨opening, inside, closing, before, after, trees, rfl, rfl, opens, closes, content⟩ :=
      hl.listed
    have some : trees ≠ [] := by
      rintro rfl
      obtain ⟨rfl, -⟩ | ⟨_, _, _, _, -, none, -⟩ := content
      · obtain ⟨_, rfl, -, first⟩ := opens.token
        obtain ⟨_, rfl, -, last⟩ := closes.token
        have empty := emptyBlock_within word [] first last
        exact filled (by simpa using empty)
      · cases none
    refine (Gives.bind (each trees rfl) fun lines sound => .ok ?_)
    refine ⟨fun none => ?_, by simpa using sound.2⟩
    have none : lines = [] := by simpa using none
    rw [none] at sound
    exact absurd (List.length_eq_zero_iff.mp sound.1.symm) some

theorem gives_first (h : Reading n (.optional (rule "stmt")) terminals tree) :
    Gives (tree.part "mainbody" Statement.ofTree) fun first =>
      (first.toList = [] → terminals = []) ∧
        ∀ statement ∈ first.toList, Sound Statement.WellFormed Statement.signs statement := by
  obtain ⟨rfl, rfl⟩ | ⟨value, rfl, shaped⟩ := h.optional
  · exact .ok ⟨fun _ => rfl, by simp⟩
  · refine (gives_statement value shaped.shaped).bind fun statement sound => .ok ⟨?_, ?_⟩
    · simp
    · simpa using sound

/-- Statements on lines of their own. -/
theorem gives_rest (h : Reading n (.cycle [token "newline", rule "stmt"]) terminals tree) :
    ∃ trees, tree = .seq trees ∧ Gives (Statement.ofSeries (trees.drop 1)) fun statements =>
      (statements = [] → terminals = []) ∧
        ∀ statement ∈ statements, Sound Statement.WellFormed Statement.signs statement := by
  obtain ⟨trees, rfl, alternating⟩ := h.shaped.cycle
  refine ⟨trees, rfl, ?_⟩
  rw [Statement.ofSeries_eq]
  cases alternating with
  | nil => exact .ok ⟨fun _ => h.cycle_nil, by simp⟩
  | cons _ second more =>
    intro statements reads
    obtain ⟨some, sound⟩ := Gives.series second more gives_statement statements reads
    exact ⟨fun none => absurd none some, sound⟩

theorem Block.proper_content {declarations : List Declaration} {statements : List Statement}
    (hd : ∀ line ∈ declarations, AllProper line.signs)
    (hs : ∀ statement ∈ statements, AllProper statement.signs) :
    AllProper (Block.content declarations statements) := by
  cases declarations with
  | nil => simpa [Block.content] using hs
  | cons first more =>
    rw [List.forall_mem_cons] at hd
    simpa [Block.content, List.flatMap_def] using ⟨hd, hs⟩

/-- A block that is well formed, with something in it. -/
def SoundBlock (block : Block) : Prop := Sound Block.WellFormed Block.signs block ∧ block.Occupied

theorem gives_block (h : Reading n (rule "mainbody") terminals tree)
    (filled : Filled terminals) : Gives (Block.ofTree tree) SoundBlock := by
  obtain ⟨_, rfl, parts⟩ := (h.body rfl).sequence
  obtain ⟨_, _, opening, _, rfl, rfl, opens, lines, _, declarations, _, rfl, rfl, hd, beginning, _,
    first, _, rfl, rfl, hf, later, _, rest, _, rfl, rfl, hr, _, _, closing, _, rfl, rfl, closes, _,
    _, line, _, rfl, rfl, -, rfl, rfl⟩ := parts
  obtain ⟨_, rfl, -, opens⟩ := opens.token
  obtain ⟨_, rfl, -, closes⟩ := closes.token
  obtain ⟨rest, rfl, rest_sound⟩ := gives_rest hr
  rw [Block.ofTree]
  refine (gives_lines hd filled.right.left).bind fun declarations declarations_sound => ?_
  refine (gives_first hf).bind fun first first_sound => ?_
  refine rest_sound.bind fun rest rest_sound => .ok ?_
  have statements : ∀ statement ∈ first.toList ++ rest,
      Sound Statement.WellFormed Statement.signs statement :=
    List.forall_mem_append.mpr ⟨first_sound.2, rest_sound.2⟩
  refine ⟨⟨⟨fun line member => (declarations_sound.2 line member).1,
    fun statement member => (statements statement member).1⟩, ?_⟩, ?_⟩
  · have content := Block.proper_content
      (fun line member => (declarations_sound.2 line member).2)
      (fun statement member => (statements statement member).2)
    simpa [Block.signs] using content
  · -- nothing between the beginning and the end of the block would be an empty block
    by_contra empty
    obtain ⟨none, alone⟩ := not_or.mp empty
    have none : declarations.getD [] = [] := not_not.mp none
    have alone : first.toList = [] ∧ rest = [] := List.append_eq_nil_iff.mp (not_not.mp alone)
    have nothing : lines = [] ∧ beginning = [] ∧ later = [] :=
      ⟨declarations_sound.1 none, first_sound.1 alone.1, rest_sound.1 alone.2⟩
    obtain ⟨rfl, rfl, rfl⟩ := nothing
    exact filled (emptyBlock_within [] _ opens closes)

/-! ## Programs -/

/-- A procedure that is well formed, with something in its body. -/
def SoundProcedure (procedure : Procedure) : Prop :=
  Sound Procedure.WellFormed Procedure.signs procedure ∧ procedure.body.Occupied

theorem gives_entry (h : Reading n (rule "start") terminals tree)
    (filled : Filled terminals) : Gives (Block.ofEntry tree) SoundBlock := by
  obtain ⟨_, rfl, parts⟩ := (h.body rfl).sequence
  obtain ⟨word, _, keyword, _, rfl, rfl, -, inside, _, body, _, rfl, rfl, hb, _, _, last, _, rfl,
    rfl, -, rfl, rfl⟩ := parts
  exact gives_block hb filled.right.left

theorem gives_procedure (h : Reading n (rule "procedure") terminals tree)
    (filled : Filled terminals) : Gives (Procedure.ofTree tree) SoundProcedure := by
  obtain ⟨_, rfl, parts⟩ := (h.body rfl).sequence
  obtain ⟨name, _, head, _, rfl, rfl, hn, listed, _, parameters, _, rfl, rfl, hp, inside, _, body,
    _, rfl, rfl, hb, _, _, last, _, rfl, rfl, -, rfl, rfl⟩ := parts
  obtain ⟨text, rfl, rfl, genuine⟩ := hn.token
  obtain ⟨trees, rfl, all⟩ := hp.shaped.listed
  have each : Gives (trees.mapM Predicate.ofTree) fun parameters =>
      parameters.length = trees.length ∧
        ∀ parameter ∈ parameters, Sound Predicate.WellFormed Predicate.signs parameter :=
    .mapM fun parameter member => gives_predicate (all parameter member)
  rw [Procedure.ofTree, SyntaxTree.text, ok_bind, SyntaxTree.items, ok_bind]
  refine each.bind fun parameters sound => ?_
  have body_sound := gives_block hb filled.right.right.left
  refine body_sound.bind fun block block_sound => .ok ⟨⟨?_, ?_⟩, block_sound.2⟩
  · exact ⟨fun parameter member => (sound.2 parameter member).1, block_sound.1.1⟩
  · simpa [Procedure.signs] using ⟨genuine.name rfl,
      fun parameter member => (sound.2 parameter member).2, block_sound.1.2⟩

/-- All entries and procedures are sound. -/
def Program.AllSound (program : Program) : Prop :=
  (∀ entry ∈ program.entries, SoundBlock entry) ∧
    ∀ procedure ∈ program.procedures, SoundProcedure procedure

theorem gives_file (h : Reading n (rule "file") terminals tree)
    (filled : Filled terminals) : Gives (Program.ofTree tree) Program.AllSound := by
  obtain ⟨parts, items, rfl, rfl, each⟩ := (h.body rfl).many
  have add : ∀ item ∈ items, ∀ program : Program, program.AllSound →
      Gives (program.add item) Program.AllSound := by
    intro item member program sound
    obtain ⟨part, within, derived⟩ := Precedence.exists_of_mem_forall₂ each.flip member
    have part_filled : Filled part := filled.within (List.infix_of_mem_flatten within)
    obtain ⟨tag, inner, value, alternative, rfl, shaped⟩ := Yields.choice derived
    simp only [List.mem_cons, Prod.mk.injEq, List.not_mem_nil, or_false] at alternative
    obtain ⟨rfl, rfl⟩ | ⟨rfl, rfl⟩ | ⟨rfl, rfl⟩ := alternative
    · refine (gives_entry shaped part_filled).bind fun block block_sound => .ok ?_
      refine ⟨List.forall_mem_append.mpr ⟨sound.1, ?_⟩, sound.2⟩
      simpa using block_sound
    · refine (gives_procedure shaped part_filled).bind fun procedure procedure_sound => .ok ?_
      refine ⟨sound.1, List.forall_mem_append.mpr ⟨sound.2, ?_⟩⟩
      simpa using procedure_sound
    · exact .ok sound
  intro program reads
  unfold Program.ofTree at reads
  split at reads
  · cases reads
  · have none : Program.AllSound ⟨[], []⟩ := ⟨by simp, by simp⟩
    exact Gives.foldlM add none program reads

/-- The kinds whose names in the grammar are no keywords and no punctuation. -/
def ownKinds : List Token.Kind := [.indent, .dedent, .number, .float]

theorem ownKinds_names :
    (∀ word ∈ Vocabulary.language.keywords, word ∉ ownKinds.map (Token.typeNameOf · "")) ∧
    ∀ sign ∈ Lexeme.punctuation, String.ofList sign.1 ∉ ownKinds.map (Token.typeNameOf · "") := by
  decide +kernel

/-- A token that the grammar knows as one of these kinds is of the kind. -/
theorem kind_of_typeName {token : Token} (h : token.kind = .eof ∨ token.Written .language)
    {kind : Token.Kind} (own : kind ∈ ownKinds)
    (same : token.typeName = Token.typeNameOf kind "") : token.kind = kind := by
  have named : token.typeName ∈ ownKinds.map (Token.typeNameOf · "") :=
    same ▸ List.mem_map_of_mem own
  obtain ⟨found, value, span⟩ := token
  cases found with
  | keyword =>
    obtain ends | word | ⟨layout, -⟩ := h
    · cases ends
    · exact absurd named (ownKinds_names.1 value word)
    · exact absurd layout (by simp [Layout.kinds])
  | symbol =>
    obtain ends | ⟨text, member, written⟩ | ⟨layout, -⟩ := h
    · cases ends
    · have written : value = String.ofList text := written
      have named : value ∈ ownKinds.map (Token.typeNameOf · "") := named
      rw [written] at named
      exact absurd named (ownKinds_names.2 _ member)
    · exact absurd layout (by simp [Layout.kinds])
  | _ =>
    simp only [ownKinds, List.mem_cons, List.not_mem_nil, or_false] at own
    obtain rfl | rfl | rfl | rfl := own <;> simp_all [Token.typeName, Token.typeNameOf]

theorem typeName_eq_iff {token : Token} (h : token.kind = .eof ∨ token.Written .language)
    (kind : Token.Kind) (own : kind ∈ ownKinds) :
    token.typeName = Token.typeNameOf kind "" ↔ token.kind = kind := by
  refine ⟨kind_of_typeName h own, ?_⟩
  rintro rfl
  simp only [ownKinds, List.mem_cons, List.not_mem_nil, or_false] at own
  obtain own | own | own | own := own <;> rw [Token.typeName, own] <;> rfl

theorem eof_or_written {source file : String} {tokens : Array Token}
    (h : tokenize source file = .ok tokens) :
    ∀ token ∈ tokens, token.kind = .eof ∨ token.Written .language := by
  obtain ⟨content, last, whole, ends, -, written⟩ := tokenize_eq_ok h
  intro token member
  rw [← Array.mem_toList_iff, whole, List.mem_append, List.mem_singleton] at member
  obtain within | rfl := member
  · exact .inr (written token within)
  · exact .inl ends

/-- In the tokens of a source no block ends where it begins. -/
theorem filled_of_tokenize {source file : String} {tokens : Array Token}
    (h : tokenize source file = .ok tokens) : Filled (tokens.toList.map Token.terminal) := by
  have arranged := arranged_of_tokenize h
  rintro ⟨before, after, same⟩
  obtain ⟨_, back, parts, split, -⟩ := List.map_eq_append_iff.mp same.symm
  obtain ⟨front, block, rfl, -, split⟩ := List.map_eq_append_iff.mp split
  obtain ⟨opening, _, rfl, opens, split⟩ := List.map_eq_cons_iff.mp split
  obtain ⟨closing, _, rfl, closes, split⟩ := List.map_eq_cons_iff.mp split
  obtain rfl := List.map_eq_nil_iff.mp split
  have within : ∀ token ∈ [opening, closing], token ∈ tokens := by
    intro token member
    rw [← Array.mem_toList_iff, parts]
    exact List.mem_append_left _ (List.mem_append_right _ member)
  have known := fun token member => eof_or_written h token (within token member)
  have indent : opening.kind = .indent :=
    (typeName_eq_iff (known _ (by simp)) _ (by decide)).mp (congrArg Prod.fst opens)
  have dedent : closing.kind = .dedent :=
    (typeName_eq_iff (known _ (by simp)) _ (by decide)).mp (congrArg Prod.fst closes)
  obtain ⟨next, more, here, text⟩ :=
    arranged.indented front opening (closing :: back) (by simp [parts]) indent
  cases here
  exact text.1 (dedent ▸ (by decide : Token.Kind.dedent ∈ Layout.kinds))

/-! ## Accepted programs -/

variable {source file : String} {program : Program}

/-- The tree of a source belongs to the tokens of the source, up to its end. -/
theorem reading_of_parse {tokens : Array Token} {other : String}
    (ht : tokenize source file = .ok tokens) (hp : parse tokens other = .ok tree) :
    ∃ terminals, tokens.toList.map Token.terminal = terminals ++ [(endKind, "")] ∧
      Reading (maxDepth + 1) (rule "file") terminals tree ∧ Filled terminals := by
  obtain ⟨terminals, whole, derived, -⟩ := derives_content ht hp
  have front : terminals <+: tokens.toList.map Token.terminal := whole ▸ List.prefix_append _ _
  have genuine : ∀ terminal ∈ terminals, terminal.Genuine := by
    intro terminal member
    obtain ⟨token, within, rfl⟩ := List.mem_map.mp (front.subset member)
    exact genuine_of_tokenize ht token (Array.mem_toList_iff.mp within)
  exact ⟨terminals, whole, ⟨maxDepth, Nat.lt_succ_self _, genuine, derived⟩,
    (filled_of_tokenize ht).within front.isInfix⟩

/-- What every accepted program is like: no block, body, series or list of values is empty where
the language asks for one, a statement of its own is a term, a target is a name with subscripts, all
operators stand where their powers put them, names are no reserved words, and numbers are not
negative. -/
theorem readSource_sound (h : readSource source file = .ok program) :
    program.WellFormed ∧ (∀ entry ∈ program.entries, entry.Occupied) ∧
      (∀ procedure ∈ program.procedures, procedure.body.Occupied) ∧ AllProper program.signs := by
  obtain ⟨tokens, tree, ht, hp, reads⟩ := readSource_eq_ok.mp h
  obtain ⟨terminals, -, reading, filled⟩ := reading_of_parse ht hp
  obtain ⟨entries, procedures⟩ := gives_file reading filled program reads
  refine ⟨⟨?_, ?_⟩, ?_, ?_, ?_⟩
  · exact fun entry member => (entries entry member).1.1
  · exact fun procedure member => (procedures procedure member).1.1
  · exact fun entry member => (entries entry member).2
  · exact fun procedure member => (procedures procedure member).2
  · have entries_proper : ∀ entry ∈ program.entries, AllProper (Block.entry entry) := by
      intro entry member
      simpa [Block.entry] using (entries entry member).1.2
    have procedures_proper : ∀ procedure ∈ program.procedures, AllProper procedure.signs :=
      fun procedure member => (procedures procedure member).1.2
    have parts := List.forall_mem_append.mpr ⟨List.forall_mem_map.mpr entries_proper,
      List.forall_mem_map.mpr procedures_proper⟩
    rw [Program.signs, Sign.allProper_append, Sign.allProper_separated]
    exact ⟨parts, by simp⟩

/-- A program with a block of each kind, and a target with two subscripts. -/
def shortProgram : String :=
  "start\n\tDeclarations\n\t\tnum n = 1\n\tset a[0][n] = -n * 2\nend\nf(num x)\n\toutput x\nreturn"

theorem readSource_sound_shortProgram : ∃ program : Program,
    readSource shortProgram = .ok program ∧
    program.WellFormed ∧ (∀ entry ∈ program.entries, entry.Occupied) ∧
      (∀ procedure ∈ program.procedures, procedure.body.Occupied) ∧ AllProper program.signs := by
  have accepted : (readSource shortProgram).isOk = true := by decide +kernel
  obtain ⟨program, h⟩ := exists_of_isOk accepted
  exact ⟨program, h, readSource_sound h⟩

end PseudoLang
