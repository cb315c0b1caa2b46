import PseudoLang.Proofs.Language.Parse
import PseudoLang.Proofs.Language.Rendering.Statements

/-!
Whole programs that are written out are parsed and read back, unless they nest too deep.
-/

namespace PseudoLang

open Grammar Grammar.Language Grammar.Parser
open Sign (between separated)

variable {tokens : Array Token} {file : String} {n : Nat}

/-! ## Blocks -/

theorem signs_of_statement {statement : Statement} (wf : statement.WellFormed) :
    ∃ sign more, statement.signs = sign :: more ∧ sign.kind ∈ statementStarts := by
  cases statement with
  | expression value =>
    obtain ⟨sign, more, begins, start⟩ := signs_of_term wf.1 wf.2
    have kinds : ∀ kind ∈ atomStarts, kind ∈ statementStarts := by decide
    exact ⟨sign, more, begins, kinds _ start⟩
  | _ => exact ⟨_, _, rfl, by simp [statementStarts, Sign.kind]⟩

theorem clear_statement {statement : Statement} (wf : statement.WellFormed) {kinds : List String}
    (apart : ∀ kind ∈ statementStarts, kind ∉ kinds) (rest : List Sign) :
    Clear kinds (statement.signs ++ rest) := by
  obtain ⟨sign, more, begins, start⟩ := signs_of_statement wf
  rw [begins]
  exact apart _ start

/-- How the declaration part of a block is written. -/
def declarationSigns (declarations : List Declaration) : List Sign :=
  [[.mark "Declarations"], between "indent"
    (separated (.mark "newline") (declarations.map Declaration.signs)) "dedent"].flatten

/-- The parts of a block: declarations, a statement right at the beginning, and others that each
come after a line break. -/
theorem block_parts (block : Block) :
    ∃ (declarations : Option (List Declaration)) (first : Option Statement)
      (rest : List Statement),
      block = ⟨declarations.getD [], first.toList ++ rest⟩ ∧
      block.signs = [[.mark "indent"], (declarations.map declarationSigns).getD [],
        (first.map Statement.signs).getD [],
        rest.flatMap fun statement => .mark "newline" :: statement.signs,
        [.mark "dedent"], [.mark "newline"]].flatten := by
  obtain ⟨declarations, statements⟩ := block
  cases declarations with
  | cons declaration declarations =>
    refine ⟨some (declaration :: declarations), none, statements, rfl, ?_⟩
    simp [Block.signs, Block.content, declarationSigns]
  | nil =>
    cases statements with
    | nil => exact ⟨none, none, [], rfl, rfl⟩
    | cons first rest =>
      refine ⟨none, some first, rest, rfl, ?_⟩
      simp [Block.signs, Block.content, separated, List.flatMap_map]

theorem takes_opening {declarations : Option (List Declaration)}
    (wf : ∀ declaration ∈ declarations.getD [], declaration.WellFormed) :
    (languageParser tokens file).Takes n (.optional (rule "declarations"))
      ((declarations.map declarationSigns).getD []) (Clear ["Declarations"])
      (fun tree => tree.part "mainbody" Declaration.ofLines = .ok declarations) := by
  apply Takes.part "mainbody" ?_ (leaves_keyword rfl)
  intro value member
  have same : declarations = some value := member
  subst same
  exact (takes_declarations wf).followed fun _ _ => trivial

theorem takes_beginning {first : Option Statement} (wf : ∀ value ∈ first, value.WellFormed) :
    (languageParser tokens file).Takes n (.optional (rule "stmt"))
      ((first.map Statement.signs).getD []) (Clear (statementStarts ++ statementContinues))
      (fun tree => tree.part "mainbody" Statement.ofTree = .ok first) := by
  have leaves : (languageParser tokens file).Leaves n (rule "stmt")
      (Clear (statementStarts ++ statementContinues)) :=
    leaves_statement.mono fun _ clear => clear.mono (by decide)
  apply Takes.part "mainbody" ?_ leaves
  intro value member
  exact (takesStatements value (wf value member)).followed fun _ clear => clear.mono (by decide)

theorem takes_lines {statements : List Statement}
    (wf : ∀ statement ∈ statements, statement.WellFormed) :
    (languageParser tokens file).Takes n (.cycle [token "newline", rule "stmt"])
      (statements.flatMap fun statement => .mark "newline" :: statement.signs)
      (Clear ("newline" :: statementContinues))
      (fun tree => ∃ trees, tree = .seq trees ∧
        Statement.ofSeries (trees.drop 1) = .ok statements) := by
  apply Takes.reading (Takes.cycle
    (fun statement member => takesStatements statement (wf statement member)) (by decide)
    (fun _ clear => clear.mono (by decide)) (fun _ clear => clear.mono (by decide)))
  rintro _ ⟨trees, rfl, all⟩
  refine ⟨trees, rfl, ?_⟩
  rw [Statement.ofSeries_eq]
  exact mapM_of_forall₂ all

theorem takes_block {block : Block} (wf : block.WellFormed) :
    (languageParser tokens file).Takes n (rule "mainbody") block.signs (fun _ => True)
      (fun tree => Block.ofTree tree = .ok block) := by
  obtain ⟨declarations, first, rest, rfl, written⟩ := block_parts block
  obtain ⟨declarations_wf, statements_wf⟩ := wf
  have first_wf : ∀ value ∈ first, value.WellFormed := by
    intro value member
    exact statements_wf value (List.mem_append_left _ (Option.mem_toList.mpr member))
  have rest_wf : ∀ statement ∈ rest, statement.WellFormed := by
    intro statement member
    exact statements_wf statement (List.mem_append_right _ member)
  have ends (kinds : List String) (newline : "newline" ∉ kinds) (dedent : "dedent" ∉ kinds)
      (signs : List Sign) :
      Clear kinds ([rest.flatMap fun statement => .mark "newline" :: statement.signs,
        [.mark "dedent"], [.mark "newline"]].flatten ++ signs) := by
    rw [List.flatten_cons, List.append_assoc]
    exact clear_flatMap newline (clear_mark dedent) rest
  rw [written]
  apply Takes.named rfl
  apply Takes.reading (TakesInTurn.sequence (.mark (.cons (takes_opening declarations_wf) ?_
    (.cons (takes_beginning first_wf) (fun signs _ => ends _ (by decide) (by decide) signs)
    (.cons (takes_lines rest_wf) (fun _ _ => clear_mark (by decide))
    (.mark (.last (.token rfl))))))))
  · rintro _ ⟨_, rfl, _, _, rfl, opening, _, rfl, read, beginning, _, rfl, starts, _, _, rfl,
      ⟨lines, rfl, follows⟩, _, _, rfl, _, rfl, -⟩
    rw [Block.ofTree, read, ok_bind, starts, ok_bind, SyntaxTree.items, ok_bind, follows]
    rfl
  · intro signs _
    cases first with
    | none => exact ends _ (by decide) (by decide) signs
    | some value =>
      rw [List.flatten_cons, List.append_assoc]
      exact clear_statement (first_wf value rfl) (by decide) _

/-! ## Entries and procedures -/

theorem takes_entry {block : Block} (wf : block.WellFormed) :
    (languageParser tokens file).Takes n (rule "start") block.entry (fun _ => True)
      (fun tree => Block.ofEntry tree = .ok block) := by
  apply Takes.named rfl
  apply Takes.reading (TakesInTurn.sequence (.mark
    (.cons (takes_block wf) (fun _ _ => trivial) (.last (.token rfl)))))
  rintro _ ⟨_, rfl, _, _, rfl, body, _, rfl, read, _, rfl, -⟩
  rw [Block.ofEntry, read]

theorem takes_procedure {procedure : Procedure} (wf : procedure.WellFormed) :
    (languageParser tokens file).Takes n (rule "procedure") procedure.signs (fun _ => True)
      (fun tree => Procedure.ofTree tree = .ok procedure) := by
  apply Takes.named rfl
  apply Takes.reading (TakesInTurn.sequence (.name
    (.cons (Takes.listed (fun parameter member => takes_predicate (wf.1 parameter member))
      leaves_predicate (by decide) (by decide) (by decide) (by decide)) (fun _ _ => trivial)
    (.cons (takes_block wf.2) (fun _ _ => trivial) (.last (.token rfl))))))
  rintro _ ⟨_, rfl, _, rfl, _, _, rfl, ⟨trees, rfl, all⟩, body, _, rfl,
    read, _, rfl, -⟩
  rw [Procedure.ofTree, SyntaxTree.text, ok_bind, SyntaxTree.items, ok_bind, mapM_of_forall₂ all,
    ok_bind, read]
  rfl

/-! ## Files -/

/-- What a file is made of. -/
inductive Item
  | entry (block : Block)
  | procedure (value : Procedure)
  | newline

namespace Item

def signs : Item → List Sign
  | .entry block => block.entry
  | .procedure value => value.signs
  | .newline => [.mark "newline"]

def WellFormed : Item → Prop
  | .entry block => block.WellFormed
  | .procedure value => value.WellFormed
  | .newline => True

/-- The program with one more item. -/
def addTo (program : Program) : Item → Program
  | .entry block => { program with entries := program.entries ++ [block] }
  | .procedure value => { program with procedures := program.procedures ++ [value] }
  | .newline => program

/-- The tree of an item. -/
def Reads (item : Item) (tree : SyntaxTree) : Prop :=
  ∀ program : Program, program.add tree = .ok (item.addTo program)

/-- Items with line breaks between them. -/
def lines : List Item → List Item
  | [] => []
  | first :: items => first :: items.flatMap fun item => [newline, item]

theorem signs_ne_nil (item : Item) : item.signs ≠ [] := by
  cases item <;> simp [signs, Block.entry, Sign.between, Procedure.signs]

theorem signs_lines (items : List Item) :
    (lines items).flatMap signs = separated (.mark "newline") (items.map signs) := by
  cases items with
  | nil => rfl
  | cons first items => simp [lines, signs, separated, List.flatMap_assoc, List.flatMap_map]

theorem foldl_lines (items : List Item) (program : Program) :
    (lines items).foldl addTo program = items.foldl addTo program := by
  have later (others : List Item) (before : Program) :
      (others.flatMap fun item => [newline, item]).foldl addTo before =
        others.foldl addTo before := by
    induction others generalizing before with
    | nil => rfl
    | cons item others ih => exact ih _
  cases items with
  | nil => rfl
  | cons first items => exact later items _

end Item

/-- The items of a program: entries, then procedures. -/
def Program.items (program : Program) : List Item :=
  program.entries.map .entry ++ program.procedures.map .procedure

theorem Program.signs_eq_lines (program : Program) :
    program.signs = (Item.lines program.items).flatMap Item.signs ++ [.eof] := by
  rw [Item.signs_lines, Program.items, Program.signs, List.map_append, List.map_map, List.map_map]
  rfl

theorem Program.foldl_items (program : Program) :
    program.items.foldl Item.addTo ⟨[], []⟩ = program := by
  have entries (blocks : List Block) (before : Program) :
      (blocks.map Item.entry).foldl Item.addTo before =
        { before with entries := before.entries ++ blocks } := by
    induction blocks generalizing before with
    | nil => simp
    | cons block blocks ih => simp [ih, Item.addTo]
  have procedures (others : List Procedure) (before : Program) :
      (others.map Item.procedure).foldl Item.addTo before =
        { before with procedures := before.procedures ++ others } := by
    induction others generalizing before with
    | nil => simp
    | cons procedure others ih => simp [ih, Item.addTo]
  rw [Program.items, List.foldl_append, entries, procedures]
  rfl

/-- The alternatives of an item, with the kinds that they begin with. -/
def fileFirsts : List (String × List String) :=
  [("start", ["start"]), ("procedure", ["name"]), ("newline", ["newline"])]

/-- An item of a file. -/
def fileItem : Rule :=
  anyOf [("start", rule "start"), ("procedure", rule "procedure"), ("newline", token "newline")]

theorem heads_file :
    Heads (languageParser tokens file) n (alternativesOf fileItem) fileFirsts :=
  .cons (leaves_keyword rfl) <| .cons (leaves_keyword rfl) <|
    .cons (.token List.mem_cons_self) .nil

theorem takes_item {item : Item} (wf : item.WellFormed) :
    (languageParser tokens file).Takes n fileItem item.signs (fun _ => True) item.Reads := by
  cases item with
  | entry block =>
    apply Takes.reading (Takes.alternative "start" heads_file (.head _) (by decide) (by decide)
      (takes_entry wf))
    rintro _ ⟨tree, rfl, read⟩ program
    rw [Program.add, read]
    rfl
  | procedure procedure =>
    have named : ∀ entry ∈ fileFirsts, "name" ∈ entry.2 → entry.1 = "procedure" := by decide
    apply Takes.reading (Takes.alternative "procedure" heads_file (.tail _ (.head _)) (by decide)
      (by exact named) (takes_procedure wf))
    rintro _ ⟨tree, rfl, read⟩ program
    rw [Program.add, read]
    rfl
  | newline =>
    apply Takes.reading (Takes.alternative "newline" heads_file (.tail _ (.tail _ (.head _)))
      (by decide) (by decide) (Takes.token rfl))
    rintro _ ⟨tree, rfl, -⟩ program
    rfl

theorem foldlM_of_reads {items : List Item} {trees : List SyntaxTree}
    (h : List.Forall₂ Item.Reads items trees) :
    ∀ program : Program,
      trees.foldlM Program.add program = .ok (items.foldl Item.addTo program) := by
  induction h with
  | nil => exact fun _ => rfl
  | cons one _ ih =>
    intro program
    rw [List.foldlM_cons, one program, ok_bind, ih, List.foldl_cons]

theorem takes_file {items : List Item} (wf : ∀ item ∈ items, item.WellFormed) :
    (languageParser tokens file).Takes n (rule "file") (items.flatMap Item.signs)
      (Clear ["start", "name", "newline"])
      (fun tree => ∃ trees, tree = .seq trees ∧ List.Forall₂ Item.Reads items trees) := by
  have each : ∀ item ∈ items, item.signs ≠ [] ∧
      (languageParser tokens file).Takes n fileItem item.signs (fun _ => True) item.Reads :=
    fun item member => ⟨item.signs_ne_nil, takes_item (wf item member)⟩
  apply Takes.named rfl
  exact Takes.many each (fun _ _ => chained_always items) (heads_file.leaves (by decide))

theorem Program.items_wellFormed {program : Program} (wf : program.WellFormed) :
    ∀ item ∈ Item.lines program.items, item.WellFormed := by
  have parts : ∀ item ∈ program.items, item.WellFormed := by
    intro item member
    obtain entry | procedure := List.mem_append.mp member
    · obtain ⟨block, within, rfl⟩ := List.mem_map.mp entry
      exact wf.1 block within
    · obtain ⟨value, within, rfl⟩ := List.mem_map.mp procedure
      exact wf.2 value within
  have lines (items : List Item) (each : ∀ item ∈ items, item.WellFormed) :
      ∀ item ∈ Item.lines items, item.WellFormed := by
    cases items with
    | nil => exact each
    | cons first items =>
      obtain ⟨one, others⟩ := List.forall_mem_cons.mp each
      apply List.forall_mem_cons.mpr ⟨one, ?_⟩
      intro item member
      obtain ⟨other, within, same⟩ := List.mem_flatMap.mp member
      obtain rfl | same := List.mem_cons.mp same
      · trivial
      · rw [List.mem_singleton.mp same]
        exact others other within
  exact lines _ parts

/-! ## Programs -/

/-- Tokens that a program is written out as are parsed to a tree that is read as the program, or
they nest too deep. -/
theorem parse_of_signs {program : Program} (wf : program.WellFormed)
    (h : List.Forall₂ Sign.Admits program.signs tokens.toList) :
    (∃ trees, parse tokens file = .ok (.seq trees) ∧
      trees.foldlM Program.add ⟨[], []⟩ = .ok program) ∨
    ∃ limit position, parse tokens file = .error (.error ⟨.nestingTooDeep limit, position⟩) := by
  rw [program.signs_eq_lines] at h
  have here : (languageParser tokens file).At 0 (_ ++ [.eof]) := h
  have last : Clear ["start", "name", "newline"] [.eof] :=
    show "EOF" ∉ ["start", "name", "newline"] by decide
  have ensured : Parse.Ensures TooDeep _
      ((languageParser tokens file).evaluateWithin maxDepth 0 (.reference "file")) :=
    takes_file (program.items_wellFormed wf) maxDepth (Nat.lt_succ_self _) 0 [.eof] here last
  have taken := ensured .initial
  unfold parse Parser.parseFile
  rw [parseRule_initial]
  generalize Parse.runFrom _ _ = outcome at taken ⊢
  obtain ⟨halt | result, after⟩ := outcome
  · obtain ⟨limit, position, rfl⟩ := taken
    exact .inr ⟨limit, position, rfl⟩
  · obtain ⟨_, rfl, trees, rfl, all⟩ := taken
    obtain ⟨token, present, ⟨-, -, ends⟩, -⟩ := At.token here.skip
    have eof : token.kind = .eof := ends
    left
    refine ⟨trees, ?_, ?_⟩
    · simp only [Option.getD_some, present, eof, if_true]
    · rw [foldlM_of_reads all, Item.foldl_lines, program.foldl_items]

/-- Every program that can be written out is read back from the tokens that it is written as, unless
they nest too deep. Nothing else can become of them. -/
theorem readTokens_of_signs {program : Program} (wf : program.WellFormed)
    (h : List.Forall₂ Sign.Admits program.signs tokens.toList) :
    readTokens tokens file = .ok program ∨
    ∃ limit position,
      readTokens tokens file = .error (.error ⟨.nestingTooDeep limit, position⟩) := by
  unfold readTokens
  obtain ⟨trees, parsed, read⟩ | ⟨limit, position, deep⟩ := @parse_of_signs tokens file program wf h
  · rw [parsed, ok_bind, Program.ofTree]
    by_cases shallow : (SyntaxTree.seq trees).depth ≤ Program.maxTreeDepth
    · left
      simp only [if_neg (Nat.not_lt.mpr shallow), SyntaxTree.items, ok_bind, read]
      rfl
    · right
      rw [if_pos (Nat.lt_of_not_le shallow)]
      exact ⟨_, _, rfl⟩
  · right
    rw [deep]
    exact ⟨limit, position, rfl⟩

/-- A condition whose operators nest against their powers, with a line break before `else`. -/
def branching : Program :=
  ⟨[⟨[], [.ifThen (.unary "NOT" (.binary "=" (.atom (.name "a")) (.atom (.num 1))))
    [.output [.atom (.string "b")] (some (.name "f"))] (some [.closeFile "f"])]⟩], []⟩

def branchingTokens : Array Token :=
  #[(.keyword, "start"), (.indent, ""), (.keyword, "if"), (.operator, "NOT"), (.name, "a"),
    (.symbol, "="), (.number, "01"), (.keyword, "then"), (.indent, ""), (.keyword, "output"),
    (.string, "b"), (.keyword, "to"), (.name, "f"), (.dedent, ""), (.newline, "\n"),
    (.keyword, "else"), (.indent, ""), (.keyword, "close"), (.name, "f"), (.dedent, ""),
    (.newline, "\n"), (.keyword, "endif"), (.dedent, ""), (.newline, "\n"), (.keyword, "end"),
    (.eof, "")].map fun (kind, value) => .spanning defaultFile 0 0 kind value

theorem readTokens_of_signs_branching :
    branching.WellFormed ∧ List.Forall₂ Sign.Admits branching.signs branchingTokens.toList ∧
    readTokens branchingTokens = .ok branching := by
  have inner : Expression.Canonical (.binary "=" (.atom (.name "a")) (.atom (.num 1))) :=
    ⟨⟨by decide, trivial, trivial⟩, by decide, by decide, trivial, trivial⟩
  have outer : Expression.Canonical (.unary "NOT" (.binary "=" (.atom (.name "a"))
      (.atom (.num 1)))) :=
    ⟨⟨by decide, inner.1⟩, by decide, inner.2⟩
  have wf : branching.WellFormed := by
    simp [branching, Program.WellFormed, Block.WellFormed, Statement.WellFormed,
      Statement.PartWellFormed, Statement.AllWellFormed, Expression.WellFormed, Atom.WellFormed,
      inner, outer]
  have written : List.Forall₂ Sign.Admits branching.signs branchingTokens.toList := by
    decide +kernel
  have accepted : (readTokens branchingTokens).isOk = true := by decide +kernel
  refine ⟨wf, written, ?_⟩
  obtain found | ⟨limit, position, deep⟩ := readTokens_of_signs wf written
  · exact found
  · rw [deep] at accepted
    cases accepted

end PseudoLang
