import PseudoLang.Proofs.Language.Rendering.Expressions
import PseudoLang.Proofs.Precedence.Likeness
import PseudoLang.Proofs.Precedence.Resolution

/-!
Expressions as flat sequences. The rule of expressions takes the terms and operators of an
expression one by one, and precedence puts them together again in the only way there is.
-/

namespace PseudoLang

open Grammar Grammar.Language Grammar.Parser
open Precedence (Element OperatorTree)

variable {tokens : Array Token} {file : String} {n : Nat}

/-! ## The sequence of an expression -/

/-- How an element of a sequence is written. -/
def elementSigns : Element Expression → List Sign
  | .term term => term.signs
  | .operator name => [.operator name]

theorem Expression.signs_eq_walk (expression : Expression) :
    expression.signs = expression.skeleton.walk.flatMap elementSigns := by
  fun_induction Expression.skeleton expression with
  | case1 operator left right ihl ihr =>
    rw [Expression.signs, OperatorTree.walk, List.flatMap_append, List.flatMap_cons, ← ihl, ← ihr]
    rfl
  | case2 operator operand ih =>
    rw [Expression.signs, OperatorTree.walk, List.flatMap_cons, ← ih]
    rfl
  | case3 term => simp [OperatorTree.walk, elementSigns]

/-- The terms of an expression are free of operators outside their atoms and suffixes. -/
theorem Expression.isTerm_of_mem_walk (expression : Expression) (wf : expression.WellFormed) :
    ∀ term, .term term ∈ expression.skeleton.walk → term.IsTerm ∧ term.WellFormed := by
  fun_induction Expression.skeleton expression with
  | case1 operator left right ihl ihr =>
    obtain ⟨-, left_wf, right_wf⟩ := wf
    intro term member
    rw [OperatorTree.walk, List.mem_append, List.mem_cons] at member
    obtain before | same | after := member
    · exact ihl left_wf term before
    · cases same
    · exact ihr right_wf term after
  | case2 operator operand ih =>
    obtain ⟨-, operand_wf⟩ := wf
    intro term member
    rw [OperatorTree.walk, List.mem_cons] at member
    obtain same | after := member
    · cases same
    · exact ih operand_wf term after
  | case3 whole notBinary notUnary =>
    intro term member
    rw [OperatorTree.walk, List.mem_singleton] at member
    cases member
    cases whole with
    | binary => exact absurd rfl (notBinary _ _ _)
    | unary => exact absurd rfl (notUnary _ _)
    | applied => exact ⟨trivial, wf⟩
    | atom => exact ⟨trivial, wf⟩

/-- The tree of a term, tagged as one. -/
def ReadsTerm (term : Expression) (tree : SyntaxTree) : Prop :=
  ∃ value, tree = .tagged "term" value ∧ Expression.ofTerm value = .ok term

/-- A tree like the operators of an expression is read as the expression. -/
theorem ofTree_join (expression : Expression) :
    ∀ {tree : OperatorTree SyntaxTree}, expression.skeleton.Alike ReadsTerm tree →
      Expression.ofTree (Grammar.Filter.join tree) = .ok expression := by
  fun_induction Expression.skeleton expression with
  | case1 operator left right ihl ihr =>
    intro tree alike
    cases alike with
    | binary _ hl hr =>
      rw [Grammar.Filter.join, Expression.ofTree, ihl hl, ihr hr]
      rfl
  | case2 operator operand ih =>
    intro tree alike
    cases alike with
    | unary _ h =>
      rw [Grammar.Filter.join, Expression.ofTree, ih h]
      rfl
  | case3 term =>
    intro tree alike
    cases alike with
    | term h =>
      obtain ⟨value, rfl, read⟩ := h
      rw [Grammar.Filter.join, Expression.ofTree, if_pos rfl, read]

/-! ## Items -/

/-- The item of a sequence that an element is read from. -/
def ReadsElement (element : Element Expression) (item : SyntaxTree) : Prop :=
  Element.Alike ReadsTerm element (Grammar.Filter.elementOf item)

/-- What may come after an element. -/
def elementFollow : Element Expression → List Sign → Prop
  | .term _ => Clear suffixStarts
  | .operator _ => fun _ => True

theorem kind_operator (name : String) :
    (Sign.operator name).kind = "=" ∨ (Sign.operator name).kind = "op" := by
  rw [Sign.kind]
  split
  · exact .inl rfl
  · exact .inr rfl

theorem takes_operator (name : String) :
    (languageParser tokens file).Takes n itemRule [.operator name] (fun _ => True)
      (ReadsElement (.operator name)) := by
  have alternative (kind tag : String) (same : (Sign.operator name).kind = kind)
      (member : (tag, token kind) ∈ alternativesOf itemRule)
      (unique : ∀ entry ∈ itemFirsts, kind ∈ entry.2 → entry.1 = tag) (other : tag ≠ "term") :
      (languageParser tokens file).Takes n itemRule [.operator name] (fun _ => True)
        (ReadsElement (.operator name)) := by
    apply Takes.reading (Takes.alternative tag heads_item member (by decide) (same ▸ unique)
      (Takes.token same))
    rintro _ ⟨_, rfl, value, rfl, spells⟩
    have spelled : value = name := spells
    rw [ReadsElement, Grammar.Filter.elementOf, spelled]
    · exact .operator name
    · exact other
  obtain equals | op := kind_operator name
  · exact alternative "=" "eq" equals (.tail _ (.tail _ (.head _))) (by decide) (by decide)
  · exact alternative "op" "op" op (.tail _ (.head _)) (by decide) (by decide)

/-- Every literal, name, group and list begins with a sign of its own. -/
theorem signs_of_atom (atom : Atom) :
    ∃ sign more, atom.signs = sign :: more ∧ sign.kind ∈ atomStarts := by
  cases atom <;> exact ⟨_, _, rfl, by simp [atomStarts, Sign.kind]⟩

theorem signs_of_term {term : Expression} (h : term.IsTerm) (wf : term.WellFormed) :
    ∃ sign more, term.signs = sign :: more ∧ sign.kind ∈ atomStarts := by
  obtain ⟨head, suffixes, written, -⟩ := term_parts h wf
  obtain ⟨sign, more, begins, start⟩ := signs_of_atom head
  rw [begins] at written
  exact ⟨sign, _, written, start⟩

theorem takes_element (ih : TakesExpressions tokens file n) {element : Element Expression}
    (terms : ∀ term, element = .term term → term.IsTerm ∧ term.WellFormed) :
    elementSigns element ≠ [] ∧
      (languageParser tokens file).Takes n itemRule (elementSigns element) (elementFollow element)
        (ReadsElement element) := by
  cases element with
  | operator name => exact ⟨List.cons_ne_nil _ _, takes_operator name⟩
  | term term =>
    obtain ⟨isTerm, wf⟩ := terms term rfl
    obtain ⟨sign, more, begins, start⟩ := signs_of_term isTerm wf
    have unique : ∀ kind ∈ atomStarts, ∀ entry ∈ itemFirsts, kind ∈ entry.2 → entry.1 = "term" := by
      decide
    have takes := takes_term ih isTerm wf
    rw [elementSigns]
    rw [begins] at takes ⊢
    constructor
    · exact List.cons_ne_nil _ _
    · apply Takes.reading (Takes.alternative "term" heads_item (.head _) (by decide)
        (unique _ start) takes)
      rintro _ ⟨value, rfl, read⟩
      exact .term ⟨value, rfl, read⟩

/-! ## Sequences -/

theorem chained_append {ι : Type} {written : ι → List Sign} {near : ι → List Sign → Prop}
    {rest : List Sign} {parts more : List ι} :
    Chained written near rest (parts ++ more) ↔
      Chained written near (more.flatMap written ++ rest) parts ∧
        Chained written near rest more := by
  induction parts with
  | nil => simp [Chained]
  | cons part parts ih => simp [Chained, ih, and_assoc]

theorem clear_operator (name : String) (rest : List Sign) :
    Clear suffixStarts (.operator name :: rest) := by
  have apart : ∀ kind, kind = "=" ∨ kind = "op" → kind ∉ suffixStarts := by
    rintro kind (rfl | rfl) <;> decide
  exact apart _ (kind_operator name)

/-- In the sequence of a tree, every term is followed by an operator or by nothing. -/
theorem chained_walk (tree : OperatorTree Expression) :
    ∀ {rest : List Sign}, Clear suffixStarts rest →
      Chained elementSigns elementFollow rest tree.walk := by
  induction tree with
  | term value => exact fun clear => ⟨clear, trivial⟩
  | binary operator left right ihl ihr =>
    intro rest clear
    rw [OperatorTree.walk, chained_append]
    exact ⟨ihl (clear_operator operator _), trivial, ihr clear⟩
  | unary operator operand ih => exact fun clear => ⟨trivial, ih clear⟩

theorem Expression.canonical_of_wellFormed {expression : Expression} (wf : expression.WellFormed) :
    expression.Canonical := by
  cases expression with
  | binary => exact wf.1
  | unary => exact wf.1
  | applied => exact ⟨trivial, trivial⟩
  | atom => exact ⟨trivial, trivial⟩

/-- The items of an expression are put together to its tree, or they nest too deep. -/
theorem precedence_of_items {expression : Expression} {items : List SyntaxTree}
    (canonical : expression.Canonical)
    (read : List.Forall₂ ReadsElement expression.skeleton.walk items) :
    (∃ tree, Grammar.Filter.precedence (.seq items) = .ok (some tree) ∧
      Expression.ofTree tree = .ok expression) ∨
    ∃ limit, Grammar.Filter.precedence (.seq items) = .error (.nestingTooDeep limit) := by
  have elements : List.Forall₂ (Element.Alike ReadsTerm) expression.skeleton.walk
      (items.map Grammar.Filter.elementOf) := List.forall₂_map_right_iff.mpr read
  obtain ⟨tree, walk, alike⟩ := OperatorTree.exists_alike elements
  have resolved := Precedence.resolve_walk (alike.known canonical.1) (alike.canonical canonical.2)
  rw [walk] at resolved
  cases items with
  | nil => exact absurd walk (OperatorTree.walk_ne_nil tree)
  | cons item items =>
    rw [Grammar.Filter.precedence]
    rotate_left
    · simp
    obtain found | deep := resolved
    · rw [found, ok_bind]
      by_cases fits : (Grammar.Filter.join tree).depth ≤ Precedence.maxNesting
      · left
        rw [if_neg (Nat.not_lt.mpr fits)]
        exact ⟨_, rfl, ofTree_join expression alike⟩
      · right
        rw [if_pos (Nat.lt_of_not_le fits)]
        exact ⟨_, rfl⟩
    · right
      rw [deep]
      exact ⟨_, rfl⟩

theorem takes_filtered (ih : TakesExpressions tokens file n) {expression : Expression}
    (wf : expression.WellFormed) :
    (languageParser tokens file).Takes n Language.expression expression.signs
      (Clear expressionStarts) (fun tree => Expression.ofTree tree = .ok expression) := by
  have each : ∀ element ∈ expression.skeleton.walk, _ := fun element member =>
    takes_element ih fun term same =>
      expression.isTerm_of_mem_walk wf term (same ▸ member)
  have chained (rest : List Sign) (clear : Clear expressionStarts rest) :=
    chained_walk expression.skeleton (clear.mono (by decide))
  have many := Takes.many each chained leaves_item
  rw [← expression.signs_eq_walk] at many
  apply Takes.filter
  apply many.reading
  rintro _ ⟨items, rfl, read⟩
  exact precedence_of_items (Expression.canonical_of_wellFormed wf) read

/-- Every expression that is written out is taken, however many rules are inside each other. -/
theorem takesExpressions : TakesExpressions tokens file n := by
  induction n with
  | zero => exact fun _ _ room less => absurd less (Nat.not_lt_zero room)
  | succ n ih => exact fun _ wf => Takes.reference rfl (takes_filtered ih wf)

theorem takes_condition {condition : Expression} (wf : condition.WellFormed) :
    (languageParser tokens file).Takes n (rule "condition") condition.signs
      (Clear expressionStarts) (fun tree => Expression.ofTree tree = .ok condition) :=
  Takes.named rfl (takes_filtered takesExpressions wf)

end PseudoLang
