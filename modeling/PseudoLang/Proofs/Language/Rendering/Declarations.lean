import PseudoLang.Proofs.Language.Rendering.Sequences

/-!
Types, parameters and declarations that are written out are taken and read back.
-/

namespace PseudoLang

open Grammar Grammar.Language Grammar.Parser
open Sign (between separated)

variable {tokens : Array Token} {file : String} {n : Nat}

/-! ## Array types -/

theorem leaves_arraySuffix :
    (languageParser tokens file).Leaves n (rule "arraytypesuffix") (Clear ["["]) :=
  .reference rfl (Leaves.token List.mem_cons_self).delimited

theorem takes_arraySuffix {suffix : ArraySuffix} (wf : suffix.WellFormed) :
    (languageParser tokens file).Takes n (rule "arraytypesuffix") suffix.signs (fun _ => True)
      (fun tree => ArraySuffix.ofTree tree = .ok suffix) := by
  have size : (languageParser tokens file).Takes n (.optional (rule "expr")) _ _ _ :=
    Takes.part "arraytypesuffix" (fun value member => takesExpressions value (wf value member))
      leaves_expression
  apply Takes.named rfl
  apply (Takes.enclosed size fun _ => clear_mark (by decide)).reading
  intro tree read
  rw [ArraySuffix.ofTree, read]
  rfl

theorem takes_arraySuffixes {suffixes : List ArraySuffix}
    (wf : ∀ suffix ∈ suffixes, suffix.WellFormed) :
    (languageParser tokens file).Takes n (.many (rule "arraytypesuffix"))
      (suffixes.flatMap ArraySuffix.signs) (Clear ["["])
      (fun tree => ArraySuffix.ofSeries tree = .ok suffixes) := by
  have each : ∀ suffix ∈ suffixes, suffix.signs ≠ [] ∧
      (languageParser tokens file).Takes n (rule "arraytypesuffix") suffix.signs (fun _ => True)
        (fun tree => ArraySuffix.ofTree tree = .ok suffix) :=
    fun suffix member => ⟨List.cons_ne_nil _ _, takes_arraySuffix (wf suffix member)⟩
  apply (Takes.many each (fun _ _ => chained_always suffixes) leaves_arraySuffix).reading
  rintro _ ⟨trees, rfl, all⟩
  rw [ArraySuffix.ofSeries, SyntaxTree.items, ok_bind]
  exact mapM_of_forall₂ all

/-! ## Element types -/

/-- The alternatives of an element type, with the kinds that they begin with. -/
def elementFirsts : List (String × List String) :=
  [("bool", ["bool"]), ("num", ["num"]), ("float", ["float"]), ("string", ["string"]),
    ("InputFile", ["InputFile"]), ("OutputFile", ["OutputFile"]), ("proc", ["proc"])]

def elementStarts : List String :=
  ["bool", "num", "float", "string", "InputFile", "OutputFile", "proc"]

theorem heads_element :
    Heads (languageParser tokens file) n (alternativesOf Language.elementType) elementFirsts := by
  have here (kind : String) :
      (languageParser tokens file).Leaves n (token kind) (Clear [kind]) := .token List.mem_cons_self
  have procedure : (languageParser tokens file).Leaves n (rule "proctype") (Clear ["proc"]) :=
    .reference rfl (here "proc").sequence
  exact .cons (here _) <| .cons (here _) <| .cons (here _) <| .cons (here _) <| .cons (here _) <|
    .cons (here _) <| .cons procedure .nil

theorem leaves_element :
    (languageParser tokens file).Leaves n (rule "elementtype") (Clear elementStarts) :=
  .reference rfl (heads_element.leaves (by decide))

theorem leaves_parameterType :
    (languageParser tokens file).Leaves n (rule "proctypeparam") (Clear elementStarts) :=
  .reference rfl leaves_element.sequence

theorem ElementType.signsOfEach_eq (parameters : List (ElementType × List ArraySuffix)) :
    ElementType.signsOfEach parameters =
      parameters.map fun parameter =>
        [parameter.1.signs, parameter.2.flatMap ArraySuffix.signs].flatten := by
  induction parameters with
  | nil => rfl
  | cons parameter parameters ih => rw [ElementType.signsOfEach, ih, List.map_cons]

theorem ElementType.allWellFormed_iff {parameters : List (ElementType × List ArraySuffix)} :
    ElementType.AllWellFormed parameters ↔ ∀ parameter ∈ parameters,
      parameter.1.WellFormed ∧ ∀ suffix ∈ parameter.2, suffix.WellFormed := by
  induction parameters with
  | nil => simp [ElementType.AllWellFormed]
  | cons parameter parameters ih => simp [ElementType.AllWellFormed, ih]

/-- The tree of one parameter of a procedure type. -/
def ReadsParameterType (parameter : ElementType × List ArraySuffix) (tree : SyntaxTree) : Prop :=
  ∃ element suffixes, tree = .seq [element, suffixes] ∧
    ElementType.ofTree element = .ok parameter.1 ∧
    ArraySuffix.ofSeries suffixes = .ok parameter.2

theorem ofParameters_of_forall₂ {parameters : List (ElementType × List ArraySuffix)}
    {trees : List SyntaxTree} (h : List.Forall₂ ReadsParameterType parameters trees) :
    ElementType.ofParameters trees = .ok parameters := by
  induction h with
  | nil => rfl
  | cons one _ ih =>
    obtain ⟨element, suffixes, rfl, read, more⟩ := one
    rw [ElementType.ofParameters, read, ok_bind, more, ok_bind, ih]
    rfl

/-- Every element type is taken by its rule, with fewer than `n` rules inside each other. -/
def TakesElements (tokens : Array Token) (file : String) (n : Nat) : Prop :=
  ∀ element : ElementType, element.WellFormed →
    (languageParser tokens file).Takes n (rule "elementtype") element.signs (fun _ => True)
      (fun tree => ElementType.ofTree tree = .ok element)

theorem takes_parameterType (ih : TakesElements tokens file n)
    {parameter : ElementType × List ArraySuffix} (wf : parameter.1.WellFormed)
    (suffixes_wf : ∀ suffix ∈ parameter.2, suffix.WellFormed) :
    (languageParser tokens file).Takes n (rule "proctypeparam")
      [parameter.1.signs, parameter.2.flatMap ArraySuffix.signs].flatten (Clear ["["])
      (ReadsParameterType parameter) := by
  apply Takes.named rfl
  apply Takes.reading (TakesInTurn.sequence (.cons (ih _ wf) (fun _ _ => trivial)
    (.last (takes_arraySuffixes suffixes_wf))))
  rintro _ ⟨_, rfl, element, _, rfl, read, suffixes, rfl, more⟩
  exact ⟨element, suffixes, rfl, read, more⟩

theorem takes_procedureType (ih : TakesElements tokens file n)
    {parameters : List (ElementType × List ArraySuffix)}
    (wf : ElementType.AllWellFormed parameters) :
    (languageParser tokens file).Takes n (rule "proctype")
      (ElementType.procedure parameters).signs (fun _ => True)
      (fun tree => ∃ word trees, tree = .seq [word, .seq trees] ∧
        ElementType.ofParameters trees = .ok parameters) := by
  have each := fun parameter member => by
    obtain ⟨element_wf, suffixes_wf⟩ := ElementType.allWellFormed_iff.mp wf parameter member
    exact takes_parameterType ih element_wf suffixes_wf
  rw [ElementType.signs, ElementType.signsOfEach_eq]
  apply Takes.named rfl
  apply Takes.reading (TakesInTurn.sequence (.mark
    (.last (Takes.listed each leaves_parameterType (by decide) (by decide) (by decide)
      (by decide)))))
  rintro _ ⟨_, rfl, word, _, rfl, _, rfl, trees, rfl, all⟩
  exact ⟨word, trees, rfl, ofParameters_of_forall₂ all⟩

theorem takes_element_as {inner : Rule} {sign : Sign} {more : List Sign}
    {follow : List Sign → Prop} {reads : SyntaxTree → Prop} (tag : String)
    (member : (tag, inner) ∈ alternativesOf Language.elementType)
    (unique : ∀ entry ∈ elementFirsts, sign.kind ∈ entry.2 → entry.1 = tag)
    (h : (languageParser tokens file).Takes n inner (sign :: more) follow reads) :
    (languageParser tokens file).Takes n Language.elementType (sign :: more) follow
      (fun tree => ∃ value, tree = .tagged tag value ∧ reads value) :=
  Takes.alternative tag heads_element member (by decide) unique h

theorem takes_plainElement {element : ElementType} (kind : String)
    (member : kind ∈ ["bool", "num", "float", "string", "InputFile", "OutputFile"])
    (read : ∀ value, ElementType.ofTree (.tagged kind value) = .ok element) :
    (languageParser tokens file).Takes n Language.elementType [.mark kind] (fun _ => True)
      (fun tree => ElementType.ofTree tree = .ok element) := by
  have listed : ∀ kind ∈ ["bool", "num", "float", "string", "InputFile", "OutputFile"],
      (kind, token kind) ∈ alternativesOf Language.elementType := by
    simp [alternativesOf, Language.elementType, anyOf]
  have unique : ∀ kind ∈ ["bool", "num", "float", "string", "InputFile", "OutputFile"],
      ∀ entry ∈ elementFirsts, kind ∈ entry.2 → entry.1 = kind := by decide
  have word : (languageParser tokens file).Takes n (token kind) [.mark kind] _ _ := .token rfl
  apply Takes.reading (takes_element_as kind (listed kind member)
    (by exact unique kind member) word)
  rintro _ ⟨value, rfl, -⟩
  exact read value

/-- Every element type that is written out is taken, however deep its parameters are nested. -/
theorem takesElements : TakesElements tokens file n := by
  induction n with
  | zero => exact fun _ _ => .noRoom
  | succ n ih =>
    intro element wf
    apply Takes.reference rfl
    cases element with
    | bool => exact takes_plainElement "bool" (by decide) fun _ => rfl
    | num => exact takes_plainElement "num" (by decide) fun _ => rfl
    | float => exact takes_plainElement "float" (by decide) fun _ => rfl
    | string => exact takes_plainElement "string" (by decide) fun _ => rfl
    | inputFile => exact takes_plainElement "InputFile" (by decide) fun _ => rfl
    | outputFile => exact takes_plainElement "OutputFile" (by decide) fun _ => rfl
    | procedure parameters =>
      apply Takes.reading (takes_element_as "proc" (List.mem_of_getLast? rfl) (by decide)
        (takes_procedureType ih wf))
      rintro _ ⟨_, rfl, word, trees, rfl, read⟩
      rw [ElementType.ofTree, read]
      rfl

/-! ## Parameters and declarations -/

theorem leaves_predicate :
    (languageParser tokens file).Leaves n (rule "predicate") (Clear elementStarts) :=
  .reference rfl leaves_element.sequence

theorem leaves_declaration :
    (languageParser tokens file).Leaves n (rule "decline") (Clear elementStarts) :=
  .reference rfl leaves_predicate.sequence

theorem takes_predicate {predicate : Predicate} (wf : predicate.WellFormed) :
    (languageParser tokens file).Takes n (rule "predicate") predicate.signs (Clear ["["])
      (fun tree => Predicate.ofTree tree = .ok predicate) := by
  apply Takes.named rfl
  apply Takes.reading (TakesInTurn.sequence (.cons (takesElements _ wf.1) (fun _ _ => trivial)
    (.name (.last (takes_arraySuffixes wf.2)))))
  rintro _ ⟨_, rfl, element, _, rfl, read, _, rfl, suffixes, rfl, more⟩
  rw [Predicate.ofTree, SyntaxTree.text, ok_bind, read, ok_bind, more]
  rfl

theorem takes_initial {value : Expression} (wf : value.WellFormed) :
    (languageParser tokens file).Takes n (all [token "=", rule "expr"])
      [[.mark "="], value.signs].flatten (Clear expressionStarts)
      (fun tree => Declaration.initialOf tree = .ok value) := by
  apply Takes.reading (TakesInTurn.sequence (.mark (.last (takesExpressions value wf))))
  rintro _ ⟨_, rfl, word, _, rfl, _, rfl, read⟩
  rw [Declaration.initialOf, read]

theorem takes_declaration {declaration : Declaration} (wf : declaration.WellFormed) :
    (languageParser tokens file).Takes n (rule "decline") declaration.signs
      (Clear expressionStarts) (fun tree => Declaration.ofTree tree = .ok declaration) := by
  have leaves : (languageParser tokens file).Leaves n (all [token "=", rule "expr"])
      (Clear expressionStarts) := (Leaves.token (by decide)).sequence
  have initial := Takes.part "decline" (fun value member => takes_initial (wf.2 value member))
    leaves
  apply Takes.named rfl
  apply Takes.reading (TakesInTurn.sequence (.cons (takes_predicate wf.1) ?_ (.last initial)))
  · rintro _ ⟨_, rfl, predicate, _, rfl, read, value, rfl, found⟩
    rw [Declaration.ofTree, found, ok_bind, read]
    rfl
  · intro rest clear
    cases declaration.initial with
    | none => exact clear.mono (by decide)
    | some value => exact clear_mark (by decide)

theorem takes_declarations {declarations : List Declaration}
    (wf : ∀ declaration ∈ declarations, declaration.WellFormed) :
    (languageParser tokens file).Takes n (rule "declarations")
      [[.mark "Declarations"], between "indent"
        (separated (.mark "newline") (declarations.map Declaration.signs)) "dedent"].flatten
      (fun _ => True) (fun tree => Declaration.ofLines tree = .ok declarations) := by
  apply Takes.named rfl
  apply Takes.reading (TakesInTurn.sequence (.mark
    (.last (Takes.listed (fun declaration member => takes_declaration (wf declaration member))
      leaves_declaration (by decide) (by decide) (by decide) (by decide)))))
  rintro _ ⟨_, rfl, word, _, rfl, _, rfl, trees, rfl, all⟩
  rw [Declaration.ofLines, SyntaxTree.items, ok_bind]
  exact mapM_of_forall₂ all

end PseudoLang
