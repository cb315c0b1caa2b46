import PseudoLang.Proofs.Language.Rendering.Declarations

/-!
Statements without bodies that are written out: assignments, input and output, and what opens and
closes files. None of them is closed by a keyword, so that each has to end before what comes next.
-/

namespace PseudoLang

open Grammar Grammar.Language Grammar.Parser
open Sign (between separated)

variable {tokens : Array Token} {file : String} {n : Nat}

/-! ## Targets -/

/-- How a subscript is written. -/
def subscriptSigns (index : Expression) : List Sign := between "[" index.signs "]"

theorem exists_subscripts {suffixes : List Suffix}
    (h : ∀ suffix ∈ suffixes, ∃ index, suffix = .subscript index) :
    ∃ indices : List Expression, suffixes = indices.map .subscript := by
  induction suffixes with
  | nil => exact ⟨[], rfl⟩
  | cons suffix suffixes ih =>
    obtain ⟨⟨index, rfl⟩, others⟩ := List.forall_mem_cons.mp h
    obtain ⟨indices, rfl⟩ := ih others
    exact ⟨index :: indices, rfl⟩

theorem Target.signs_ofParts (head : String) (indices : List Expression) :
    (Target.ofParts head indices).signs =
      [[.name head], indices.flatMap subscriptSigns].flatten := by
  obtain rfl | ⟨before, index, rfl⟩ := List.eq_nil_or_concat indices
  · rfl
  · rw [List.concat_eq_append, Target.ofParts, List.getLast?_concat, List.dropLast_concat]
    cases before with
    | nil => simp [Target.signs, Expression.signs, Atom.signs, subscriptSigns]
    | cons first more =>
      simp [Target.signs, Expression.signs, Atom.signs, Suffix.signsOfEach_eq, Suffix.signs,
        subscriptSigns, List.flatMap_def, Function.comp_def]
      rfl

/-- A target is what is read from a name with subscripts. -/
theorem target_parts {target : Target} (wf : target.WellFormed) :
    ∃ (head : String) (indices : List Expression), Target.ofParts head indices = target ∧
      ∀ index ∈ indices, index.WellFormed := by
  cases target with
  | name text => exact ⟨text, [], rfl, by simp⟩
  | subscript head index =>
    obtain ⟨place, head_wf, index_wf⟩ := wf
    cases head with
    | binary => exact place.elim
    | unary => exact place.elim
    | atom value =>
      cases value with
      | name text => exact ⟨text, [index], rfl, by simpa using index_wf⟩
      | _ => exact place.elim
    | applied value suffixes =>
      cases value with
      | name text =>
        obtain ⟨indices, rfl⟩ := exists_subscripts place
        obtain ⟨some, -, suffixes_wf⟩ := head_wf
        have indices_wf : ∀ index ∈ indices, index.WellFormed := by
          intro index member
          exact Suffix.allWellFormed_iff.mp suffixes_wf _ (List.mem_map_of_mem member)
        refine ⟨text, indices ++ [index], ?_, ?_⟩
        · cases indices with
          | nil => exact absurd rfl some
          | cons first more =>
            rw [Target.ofParts, List.getLast?_concat, List.dropLast_concat]
        · intro other member
          obtain before | same := List.mem_append.mp member
          · exact indices_wf other before
          · exact List.mem_singleton.mp same ▸ index_wf
      | _ => exact place.elim

theorem takes_target {target : Target} (wf : target.WellFormed) :
    (languageParser tokens file).Takes n (rule "lval") target.signs (Clear ["["])
      (fun tree => Target.ofTree tree = .ok target) := by
  obtain ⟨head, indices, rfl, indices_wf⟩ := target_parts wf
  have each : ∀ index ∈ indices, subscriptSigns index ≠ [] ∧
      (languageParser tokens file).Takes n (rule "subscript") (subscriptSigns index)
        (fun _ => True) (fun tree => Expression.ofTree tree = .ok index) :=
    fun index member =>
      ⟨List.cons_ne_nil _ _, takes_subscript takesExpressions (indices_wf index member)⟩
  rw [Target.signs_ofParts]
  apply Takes.named rfl
  apply Takes.reading (TakesInTurn.sequence (.name
    (.last (Takes.many each (fun _ _ => chained_always indices) leaves_subscript))))
  rintro _ ⟨_, rfl, _, rfl, _, rfl, trees, rfl, all⟩
  rw [Target.ofTree, SyntaxTree.text, ok_bind, SyntaxTree.items, ok_bind, Expression.ofTrees_eq,
    mapM_of_forall₂ all, ok_bind]
  rfl

/-! ## Clauses and series -/

theorem takes_clause (word name : String) {atom : Option Atom}
    (wf : ∀ value ∈ atom, value.WellFormed) :
    (languageParser tokens file).Takes n (.optional (all [token word, rule "atom"]))
      (Atom.clause word atom) (Clear [word])
      (fun tree => tree.part name (Atom.ofClause name) = .ok atom) := by
  have leaves : (languageParser tokens file).Leaves n (all [token word, rule "atom"])
      (Clear [word]) := (Leaves.token List.mem_cons_self).sequence
  apply Takes.part name ?_ leaves
  intro value member
  refine Takes.reading (TakesInTurn.sequence (.mark
    (.last ((takes_atom takesExpressions (wf value member)).followed fun _ _ => trivial)))) ?_
  rintro _ ⟨_, rfl, word, _, rfl, _, rfl, read⟩
  rw [Atom.ofClause, read]

theorem clear_clause {word : String} {kinds : List String} (apart : word ∉ kinds)
    {atom : Option Atom} {rest : List Sign} (clear : Clear kinds rest) :
    Clear kinds ([Atom.clause word atom].flatten ++ rest) := by
  cases atom with
  | none => exact clear
  | some value => exact clear_mark apart

theorem leaves_separator (separator : String) {primary : Rule} :
    (languageParser tokens file).LeavesRound n
      (fun evaluate => following evaluate true (.token separator none) primary)
      (Clear [separator]) :=
  .following true (.token List.mem_cons_self)

theorem takes_names {names : List String} (some : names ≠ []) {error : Option String} :
    (languageParser tokens file).Takes n (.split (token "name") (token ",") error)
      (separated (.mark ",") (names.map fun text => [.name text])) (Clear [","])
      (fun tree => ∃ trees, tree = .seq trees ∧
        (SyntaxTree.primaries trees).mapM (SyntaxTree.text "input") = .ok names) := by
  cases names with
  | nil => exact absurd rfl some
  | cons first names =>
    have each : ∀ text ∈ first :: names, (languageParser tokens file).Takes n (token "name")
        [.name text] (Clear []) (fun tree => tree.text "input" = .ok text) := by
      intro text _
      apply (Takes.name text).mono (fun _ _ => trivial)
      rintro _ rfl
      rfl
    apply Takes.reading (Takes.split each (by decide) (fun _ clear => clear.mono (by decide))
      (leaves_separator ","))
    rintro _ ⟨trees, rfl, all⟩
    exact ⟨trees, rfl, mapM_of_forall₂ all⟩

theorem takes_values {values : List Expression} (some : values ≠ [])
    (wf : ∀ value ∈ values, value.WellFormed) {error : Option String} :
    (languageParser tokens file).Takes n (.split (rule "expr") (token ",") error)
      (separated (.mark ",") (values.map Expression.signs)) (Clear ("," :: expressionStarts))
      (fun tree => ∃ trees, tree = .seq trees ∧
        Expression.ofTrees (SyntaxTree.primaries trees) = .ok values) := by
  cases values with
  | nil => exact absurd rfl some
  | cons first values =>
    apply Takes.reading (Takes.split (fun value member => takesExpressions value (wf value member))
      (by decide) (fun _ clear => clear.mono (by decide)) ?_)
    · rintro _ ⟨trees, rfl, all⟩
      rw [← mapM_of_forall₂ all, ← Expression.ofTrees_eq]
      exact ⟨trees, rfl, rfl⟩
    · exact (leaves_separator ",").mono fun _ clear => clear.mono (by decide)

/-! ## Actions -/

theorem takes_set {target : Target} {value : Expression} (target_wf : target.WellFormed)
    (wf : value.WellFormed) :
    (languageParser tokens file).Takes n (rule "set") (Statement.set target value).signs
      (Clear expressionStarts)
      (fun tree => Statement.ofTree (.tagged "set" tree) = .ok (.set target value)) := by
  rw [Statement.signs]
  apply Takes.named rfl
  apply Takes.reading (TakesInTurn.sequence (.mark
    (.cons (takes_target target_wf) (fun _ _ => clear_mark (by decide))
    (.mark (.last (takesExpressions value wf).required)))))
  rintro _ ⟨_, rfl, _, _, rfl, place, _, rfl, read, _, _, rfl, _, rfl, more⟩
  simp only [Statement.ofTree, read, ok_bind, more]
  rfl

theorem takes_input {names : List String} {atom : Option Atom} (some : names ≠ [])
    (wf : ∀ value ∈ atom, value.WellFormed) :
    (languageParser tokens file).Takes n (rule "input") (Statement.input names atom).signs
      (Clear [",", "from"])
      (fun tree => Statement.ofTree (.tagged "input" tree) = .ok (.input names atom)) := by
  have clause : (languageParser tokens file).Takes n _ _ (Clear ["from"]) _ :=
    takes_clause "from" "input" wf
  rw [Statement.signs]
  apply Takes.named rfl
  refine Takes.reading (TakesInTurn.sequence (.mark
    (.cons (takes_names some) (fun _ clear => clear_clause (by decide) (clear.mono (by decide)))
    (.last (clause.followed fun _ clear => clear.mono (by decide)))))) ?_
  rintro _ ⟨_, rfl, _, _, rfl, _, _, rfl, ⟨trees, rfl, read⟩, _, rfl, more⟩
  simp only [Statement.ofTree, SyntaxTree.items, ok_bind, read, more]
  rfl

theorem takes_output {values : List Expression} {atom : Option Atom} (some : values ≠ [])
    (values_wf : ∀ value ∈ values, value.WellFormed) (wf : ∀ value ∈ atom, value.WellFormed) :
    (languageParser tokens file).Takes n (rule "output") (Statement.output values atom).signs
      (Clear ("," :: "to" :: expressionStarts))
      (fun tree => Statement.ofTree (.tagged "output" tree) = .ok (.output values atom)) := by
  have clause : (languageParser tokens file).Takes n _ _ (Clear ["to"]) _ :=
    takes_clause "to" "output" wf
  rw [Statement.signs]
  apply Takes.named rfl
  refine Takes.reading (TakesInTurn.sequence (.mark (.cons (takes_values some values_wf)
      (fun _ clear => clear_clause (by decide) (clear.mono (by decide)))
    (.last (clause.followed fun _ clear => clear.mono (by decide)))))) ?_
  rintro _ ⟨_, rfl, _, _, rfl, _, _, rfl, ⟨trees, rfl, read⟩, _, rfl, more⟩
  simp only [Statement.ofTree, SyntaxTree.items, ok_bind, read, more]
  rfl

theorem takes_open {path : Atom} (name : String) (wf : path.WellFormed) :
    (languageParser tokens file).Takes n (rule "open") (Statement.openFile name path).signs
      (fun _ => True)
      (fun tree => Statement.ofTree (.tagged "open" tree) = .ok (.openFile name path)) := by
  rw [Statement.signs]
  apply Takes.named rfl
  apply Takes.reading (TakesInTurn.sequence (.mark
    (.name (.last (takes_atom takesExpressions wf)))))
  rintro _ ⟨_, rfl, _, _, rfl, _, rfl, _, rfl, read⟩
  simp only [Statement.ofTree, SyntaxTree.text, ok_bind, read]
  rfl

theorem takes_close (name : String) :
    (languageParser tokens file).Takes n (rule "close") (Statement.closeFile name).signs
      (fun _ => True)
      (fun tree => Statement.ofTree (.tagged "close" tree) = .ok (.closeFile name)) := by
  rw [Statement.signs]
  apply Takes.named rfl
  apply Takes.reading (TakesInTurn.sequence (.mark (.last (.name name))))
  rintro _ ⟨_, rfl, _, _, rfl, _, rfl, rfl⟩
  simp only [Statement.ofTree, SyntaxTree.text, ok_bind]
  rfl

end PseudoLang
