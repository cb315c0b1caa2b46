import PseudoLang.Proofs.Language.Shape
import PseudoLang.Proofs.Program.OfTree

/-!
Every tree that the grammar gives can be read as a program, unless a number in it is written in a
way that stands for no number.
-/

namespace PseudoLang

open Grammar Grammar.Language
open Precedence (OperatorTree)

/-- A part of a tree, at any depth. -/
inductive SyntaxTree.Within (part : SyntaxTree) : SyntaxTree → Prop
  | self : Within part part
  | inside {child tree : SyntaxTree} :
      child ∈ tree.children → Within part child → Within part tree

/-- A number literal whose text stands for no number. -/
def SyntaxTree.Unreadable (text : String) (leaf : SyntaxTree) : Prop :=
  (∃ kind, leaf = .tagged "num" (.token kind text)) ∧ Number.readInt64? text = none ∨
  (∃ kind, leaf = .tagged "float" (.token kind text)) ∧ Number.Binary64.read? text = none

/-- The token of a number whose text stands for no number. -/
def Terminal.Unreadable (terminal : Terminal) : Prop :=
  terminal.1 = "literal_num" ∧ Number.readInt64? terminal.2 = none ∨
  terminal.1 = "literal_float" ∧ Number.Binary64.read? terminal.2 = none

/-- What is made of a tree, from tokens that all have the property `P`, is a result, or the error
of a number inside the tree. -/
def Readable (P : Terminal → Prop) {α : Type} (tree : SyntaxTree) (result : Except Cause α) :
    Prop :=
  ∀ cause, result = .error cause → ∃ terminal : Terminal, P terminal ∧ terminal.Unreadable ∧
    (∃ leaf : SyntaxTree, leaf.Within tree ∧ leaf.Unreadable terminal.2) ∧
    cause = .numberParseError terminal.2

section

variable {P : Terminal → Prop} {α β : Type} {tree : SyntaxTree}

theorem Readable.ok {a : α} : Readable P tree (.ok a) := fun _ h => nomatch h

theorem Readable.bind {result : Except Cause α} {next : α → Except Cause β}
    (h : Readable P tree result) (hn : ∀ a, Readable P tree (next a)) :
    Readable P tree (result >>= next) := by
  cases result with
  | error cause =>
    intro _ failed
    cases failed
    exact h cause rfl
  | ok a => exact hn a

theorem Readable.below {child : SyntaxTree} {result : Except Cause α}
    (member : child ∈ tree.children) (h : Readable P child result) : Readable P tree result := by
  intro cause failed
  obtain ⟨terminal, known, unreadable, ⟨leaf, within, here⟩, same⟩ := h cause failed
  exact ⟨terminal, known, unreadable, ⟨leaf, .inside member within, here⟩, same⟩

theorem Readable.item {item : SyntaxTree} {items : List SyntaxTree} {result : Except Cause α}
    (h : Readable P item result) (member : item ∈ items) : Readable P (.seq items) result :=
  h.below member

theorem Readable.tagged {tag : String} {result : Except Cause α} (h : Readable P tree result) :
    Readable P (.tagged tag tree) result := h.below List.mem_cons_self

theorem Readable.mapM {read : SyntaxTree → Except Cause α} {trees : List SyntaxTree}
    (h : ∀ item ∈ trees, Readable P tree (read item)) : Readable P tree (trees.mapM read) := by
  induction trees with
  | nil => exact .ok
  | cons first trees ih =>
    obtain ⟨hf, hr⟩ := List.forall_mem_cons.mp h
    rw [List.mapM_cons]
    exact hf.bind fun _ => (ih hr).bind fun _ => .ok

theorem Readable.items {read : SyntaxTree → Except Cause α} {trees : List SyntaxTree}
    (h : ∀ item ∈ trees, Readable P item (read item)) : Readable P (.seq trees) (trees.mapM read) :=
  .mapM fun item member => (h item member).item member

/-- A result that is no error of a number is there. -/
theorem Readable.ok_or_unreadable {result : Except Cause α} (h : Readable P tree result) :
    (∃ a, result = .ok a) ∨ ∃ terminal : Terminal, P terminal ∧ terminal.Unreadable ∧
      (∃ leaf : SyntaxTree, leaf.Within tree ∧ leaf.Unreadable terminal.2) ∧
      result = .error (.numberParseError terminal.2) := by
  cases result with
  | ok a => exact .inl ⟨a, rfl⟩
  | error cause =>
    obtain ⟨terminal, known, unreadable, leaf, rfl⟩ := h cause rfl
    exact .inr ⟨terminal, known, unreadable, leaf, rfl⟩

end

theorem Grammar.Alternating.mono {separator item item' : SyntaxTree → Prop}
    (hi : ∀ tree, item tree → item' tree) {trees : List SyntaxTree}
    (h : Alternating separator item trees) : Alternating separator item' trees := by
  induction h with
  | nil => exact .nil
  | cons hs here _ ih => exact .cons hs (hi _ here) ih

/-- The primaries of a series are its first item and every item after a separator. -/
theorem primaries_of_alternating {separator item : SyntaxTree → Prop} {first : SyntaxTree}
    {rest : List SyntaxTree} (hf : item first) (h : Alternating separator item rest) :
    ∀ tree ∈ SyntaxTree.primaries (first :: rest), item tree := by
  induction h generalizing first with
  | nil => exact List.forall_mem_singleton.mpr hf
  | cons _ next _ ih =>
    rw [SyntaxTree.primaries]
    exact List.forall_mem_cons.mpr ⟨hf, ih next⟩

theorem Readable.series {α : Type} {read : SyntaxTree → Except Cause α} {trees : List SyntaxTree}
    (h : ∀ tree ∈ SyntaxTree.primaries trees, Readable P tree (read tree)) :
    Readable P (.seq trees) ((SyntaxTree.primaries trees).mapM read) :=
  .mapM fun tree member => (h tree member).item (SyntaxTree.mem_of_mem_primaries member)

variable {P : Terminal → Prop} {n : Nat} {tree : SyntaxTree}

/-! ## Expressions -/

theorem readable_expressions {trees : List SyntaxTree}
    (h : ∀ tree ∈ trees, Readable P tree (Expression.ofTree tree)) :
    Readable P (.seq trees) (Expression.ofTrees trees) := by
  rw [Expression.ofTrees_eq]
  exact .items h

theorem readable_suffix (ih : ∀ tree, Of P n "expr" tree → Readable P tree (Expression.ofTree tree))
    (h : Of P n "suffix" tree) : Readable P tree (Suffix.ofTree tree) := by
  obtain ⟨value, rfl, hv⟩ | ⟨trees, rfl, ht⟩ := shape_suffix h
  · exact .tagged ((ih value hv).bind fun _ => .ok)
  · have arguments := readable_expressions fun tree member => ih tree (ht tree member)
    exact .tagged (arguments.bind fun _ => .ok)

theorem readable_number {α : Type} {read : String → Option α} {terminal : Terminal}
    (known : P terminal) (leaf : read terminal.2 = none → tree.Unreadable terminal.2)
    (token : read terminal.2 = none → terminal.Unreadable) :
    Readable P tree (Number.ofText read terminal.2) := by
  unfold Number.ofText
  split
  · exact .ok
  · rename_i failed
    rintro _ ⟨⟩
    exact ⟨terminal, known, token failed, ⟨tree, .self, leaf failed⟩, rfl⟩

theorem readable_atom
    (ih : ∀ tree, Of P n "expr" tree → Readable P tree (Expression.ofTree tree))
    (h : Of P n "atom" tree) : Readable P tree (Atom.ofTree tree) := by
  obtain ⟨value, rfl, hv⟩ | ⟨trees, rfl, ht⟩ | ⟨tag, kind, _, member, rfl, value, rfl, known⟩ :=
    shape_atom h
  · exact .tagged ((ih value hv).bind fun _ => .ok)
  · have items := readable_expressions fun tree member => ih tree (ht tree member)
    exact .tagged (items.bind fun _ => .ok)
  · simp only [literals, List.mem_cons, Prod.mk.injEq, List.not_mem_nil, or_false] at member
    obtain ⟨rfl, rfl⟩ | ⟨rfl, rfl⟩ | ⟨rfl, rfl⟩ | ⟨rfl, rfl⟩ | ⟨rfl, rfl⟩ := member
    · exact .ok
    · refine (readable_number known (fun failed => ?_) fun failed => ?_).bind fun _ => .ok
      · exact .inl ⟨⟨_, rfl⟩, failed⟩
      · exact .inl ⟨rfl, failed⟩
    · refine (readable_number known (fun failed => ?_) fun failed => ?_).bind fun _ => .ok
      · exact .inr ⟨⟨_, rfl⟩, failed⟩
      · exact .inr ⟨rfl, failed⟩
    · exact .ok
    · exact .ok

theorem readable_term (ih : ∀ tree, Of P n "expr" tree → Readable P tree (Expression.ofTree tree))
    (h : Of P n "term" tree) : Readable P tree (Expression.ofTerm tree) := by
  obtain ⟨head, suffixes, rfl, hh, hs⟩ := shape_term h
  have head_readable := readable_atom ih hh
  rw [Expression.ofTerm]
  apply (head_readable.item (by simp)).bind
  intro atom
  cases suffixes with
  | nil => exact .ok
  | cons suffix suffixes =>
    have applied : Readable P (.seq (suffix :: suffixes))
        (Suffix.ofTrees (suffix :: suffixes)) := by
      rw [Suffix.ofTrees_eq]
      exact .items fun tree member => readable_suffix ih (hs tree member)
    exact (applied.item (by simp)).bind fun _ => .ok

theorem readable_join {operators : OperatorTree SyntaxTree}
    (h : ∀ leaf, .term leaf ∈ operators.walk → Readable P leaf (Expression.ofTree leaf)) :
    Readable P (Grammar.Filter.join operators)
      (Expression.ofTree (Grammar.Filter.join operators)) := by
  induction operators with
  | term leaf => exact h leaf List.mem_cons_self
  | binary operator left right hl hr =>
    have left_readable := hl fun leaf hm => h leaf (by simp [OperatorTree.walk, hm])
    have right_readable := hr fun leaf hm => h leaf (by simp [OperatorTree.walk, hm])
    rw [Grammar.Filter.join, Expression.ofTree]
    apply (left_readable.below (by simp [SyntaxTree.children])).bind
    intro _
    exact (right_readable.below (by simp [SyntaxTree.children])).bind fun _ => .ok
  | unary operator operand ho =>
    have operand_readable := ho fun leaf hm => h leaf (by simp [OperatorTree.walk, hm])
    rw [Grammar.Filter.join, Expression.ofTree]
    exact (operand_readable.below (by simp [SyntaxTree.children])).bind fun _ => .ok

theorem readable_expression :
    ∀ tree, Of P n "expr" tree → Readable P tree (Expression.ofTree tree) := by
  induction n with
  | zero => exact fun _ h => absurd h not_shaped_zero
  | succ n ih =>
    intro tree h
    obtain ⟨operators, rfl, -, -, terms⟩ := shape_expression h
    apply readable_join
    intro leaf member
    obtain ⟨value, rfl, hv⟩ := terms leaf member
    exact .tagged (readable_term ih hv)

/-! ## Types and declarations -/

theorem Readable.part {α : Type} {read : SyntaxTree → Except Cause α} {rule : String}
    (h : tree = .seq [] ∨ ∃ value, tree = .seq [value] ∧ Readable P value (read value)) :
    Readable P tree (tree.part rule read) := by
  obtain rfl | ⟨value, rfl, hv⟩ := h
  · exact .ok
  · exact (hv.item List.mem_cons_self).bind fun _ => .ok

theorem readable_arraySuffix (h : Of P n "arraytypesuffix" tree) :
    Readable P tree (ArraySuffix.ofTree tree) := by
  have size : Readable P tree (tree.part "arraytypesuffix" Expression.ofTree) := by
    refine .part ?_
    obtain rfl | ⟨value, rfl, hv⟩ := shape_arraySuffix h
    · exact .inl rfl
    · exact .inr ⟨value, rfl, readable_expression value hv⟩
  exact size.bind fun _ => .ok

theorem readable_arraySuffixes {trees : List SyntaxTree}
    (h : ∀ tree ∈ trees, Of P n "arraytypesuffix" tree) :
    Readable P (.seq trees) (ArraySuffix.ofSeries (.seq trees)) :=
  .items fun tree member => readable_arraySuffix (h tree member)

theorem readable_parameters {trees : List SyntaxTree}
    (ih : ∀ tree, Of P n "elementtype" tree → Readable P tree (ElementType.ofTree tree))
    (h : ∀ tree ∈ trees, Of P n "proctypeparam" tree) :
    ∀ whole : List SyntaxTree, (∀ tree ∈ trees, tree ∈ whole) →
      Readable P (.seq whole) (ElementType.ofParameters trees) := by
  induction trees with
  | nil => exact fun _ _ => .ok
  | cons parameter trees more =>
    intro whole within
    obtain ⟨hp, hr⟩ := List.forall_mem_cons.mp h
    obtain ⟨here, rest⟩ := List.forall_mem_cons.mp within
    obtain ⟨element, suffixes, rfl, he, hs⟩ := shape_procedureTypeParameter hp
    have element_readable := ih element he
    have suffixes_readable := readable_arraySuffixes hs
    rw [ElementType.ofParameters]
    apply (Readable.item (element_readable.item (by simp)) here).bind
    intro _
    apply (Readable.item (suffixes_readable.item (by simp)) here).bind
    intro _
    exact (more hr whole rest).bind fun _ => .ok

theorem readable_elementType :
    ∀ tree, Of P n "elementtype" tree → Readable P tree (ElementType.ofTree tree) := by
  induction n with
  | zero => exact fun _ h => absurd h not_shaped_zero
  | succ n ih =>
    intro tree h
    obtain ⟨tag, member, _, rfl, -⟩ | ⟨keyword, parameters, rfl, hp⟩ := shape_elementType h
    · simp only [plainTypes, List.mem_cons, List.not_mem_nil, or_false] at member
      obtain rfl | rfl | rfl | rfl | rfl | rfl := member <;> exact .ok
    · have all := readable_parameters ih hp parameters fun _ member => member
      exact .tagged ((all.item (by simp)).bind fun _ => .ok)

theorem readable_predicate (h : Of P n "predicate" tree) :
    Readable P tree (Predicate.ofTree tree) := by
  obtain ⟨element, _, suffixes, rfl, he, ⟨name, rfl, -⟩, hs⟩ := shape_predicate h
  have element_readable := readable_elementType element he
  have suffixes_readable := readable_arraySuffixes hs
  refine (element_readable.item (by simp)).bind fun _ => ?_
  exact (suffixes_readable.item (by simp)).bind fun _ => .ok

theorem readable_declaration (h : Of P n "decline" tree) :
    Readable P tree (Declaration.ofTree tree) := by
  obtain ⟨predicate, initial, rfl, hp, hi⟩ := shape_declarationLine h
  have initial_readable : Readable P initial (initial.part "decline" Declaration.initialOf) := by
    refine .part ?_
    obtain rfl | ⟨sign, value, rfl, hv⟩ := hi
    · exact .inl rfl
    · exact .inr ⟨_, rfl, (readable_expression value hv).item (by simp)⟩
  refine (initial_readable.item (by simp)).bind fun _ => ?_
  exact ((readable_predicate hp).item (by simp)).bind fun _ => .ok

/-! ## Statements -/

theorem readable_fileClause {rule : String} (h : FileClause P n tree) :
    Readable P tree (tree.part rule (Atom.ofClause rule)) := by
  refine .part ?_
  obtain rfl | ⟨word, file, rfl, hf⟩ := h
  · exact .inl rfl
  · exact .inr ⟨_, rfl, (readable_atom readable_expression hf).item (by simp)⟩

theorem readable_target (h : Of P n "lval" tree) : Readable P tree (Target.ofTree tree) := by
  obtain ⟨_, subscripts, rfl, ⟨name, rfl, -⟩, hs⟩ := shape_target h
  have all := readable_expressions fun tree member => readable_expression tree (hs tree member)
  exact (all.item (by simp)).bind fun _ => .ok

theorem readable_body (ih : ∀ tree, Of P n "stmt" tree → Readable P tree (Statement.ofTree tree))
    (h : Of P n "body" tree) : Readable P tree (Statement.ofBody tree) := by
  obtain ⟨first, rest, rfl, hf, hr⟩ | ⟨value, rfl, hv⟩ := shape_body h
  · rw [Statement.ofBody, Statement.ofSeries_eq]
    exact .tagged (.series fun tree member =>
      ih tree (primaries_of_alternating hf hr tree member))
  · exact .tagged ((ih value hv).bind fun _ => .ok)

theorem readable_alternative
    (ih : ∀ tree, Of P n "stmt" tree → Readable P tree (Statement.ofTree tree))
    (h : tree = .seq [] ∨ ∃ line keyword body, tree = .seq [.seq [line, keyword, body]] ∧
      Of P n "body" body) : Readable P tree (Statement.ofAlternative tree) := by
  obtain rfl | ⟨line, keyword, body, rfl, hb⟩ := h
  · exact .ok
  · have body_readable := readable_body ih hb
    have clause_readable : Readable P (.seq [line, keyword, body])
        (Statement.ofBody body >>= fun body => .ok (some body)) :=
      (body_readable.item (by simp)).bind fun _ => .ok
    exact clause_readable.item List.mem_cons_self

theorem readable_arm (ih : ∀ tree, Of P n "stmt" tree → Readable P tree (Statement.ofTree tree))
    (h : Of P n "case_case" tree) : Readable P tree (Statement.ofArm tree) := by
  obtain ⟨test, sign, body, rfl, ht, hb⟩ := shape_caseArm h
  have test_readable := readable_atom readable_expression ht
  have body_readable := readable_body ih hb
  apply (test_readable.item (by simp)).bind
  intro _
  exact (body_readable.item (by simp)).bind fun _ => .ok

theorem readable_arms (ih : ∀ tree, Of P n "stmt" tree → Readable P tree (Statement.ofTree tree))
    {arms : Option SyntaxTree} (default : Option SyntaxTree)
    (h : ∀ series ∈ arms, ∃ first rest, series = .seq (first :: rest) ∧ Of P n "case_case" first ∧
      Alternating (Shaped table P n (token "newline")) (Of P n "case_case") rest) :
    Readable P (.pair arms default) (Statement.ofArms arms) := by
  cases arms with
  | none => exact .ok
  | some series =>
    obtain ⟨first, rest, rfl, hf, hr⟩ := h series rfl
    have arms_readable : Readable P (.seq (first :: rest))
        (Statement.ofArmSeries (first :: rest)) := by
      rw [Statement.ofArmSeries_eq]
      exact .series fun tree member =>
        readable_arm ih (primaries_of_alternating hf hr tree member)
    rw [Statement.ofArms]
    exact arms_readable.below (by simp [SyntaxTree.children])

theorem readable_default (ih : ∀ tree, Of P n "stmt" tree → Readable P tree (Statement.ofTree tree))
    {default : Option SyntaxTree} (arms : Option SyntaxTree)
    (h : ∀ arm ∈ default, Of P n "default_case" arm) :
    Readable P (.pair arms default) (Statement.ofDefault default) := by
  cases default with
  | none => exact .ok
  | some arm =>
    obtain ⟨keyword, sign, body, rfl, hb⟩ := shape_defaultArm (h arm rfl)
    have body_readable := readable_body ih hb
    have arm_readable : Readable P (.seq [keyword, sign, body])
        (Statement.ofBody body >>= fun body => .ok (some body)) :=
      (body_readable.item (by simp)).bind fun _ => .ok
    exact arm_readable.below (by simp [SyntaxTree.children])

theorem readable_names {first : SyntaxTree} {rest : List SyntaxTree}
    (hf : TokenOf P "name" first)
    (hr : Alternating (Shaped table P n (token ",")) (Shaped table P n (token "name")) rest) :
    Readable P (.seq (first :: rest))
      ((SyntaxTree.primaries (first :: rest)).mapM (SyntaxTree.text "input")) := by
  refine .series fun tree member => ?_
  have names : Alternating (Shaped table P n (token ",")) (TokenOf P "name") rest :=
    hr.mono fun _ shaped => shaped.token
  obtain ⟨name, rfl, -⟩ := primaries_of_alternating hf names tree member
  exact .ok

theorem readable_form (ih : ∀ tree, Of P n "stmt" tree → Readable P tree (Statement.ofTree tree))
    {name : String} (member : name ∈ statementForms) (h : Of P n name tree) :
    Readable P (.tagged name tree) (Statement.ofTree (.tagged name tree)) := by
  refine .tagged ?_
  simp only [statementForms, List.mem_cons, List.not_mem_nil, or_false] at member
  obtain rfl | rfl | rfl | rfl | rfl | rfl | rfl | rfl | rfl | rfl := member
  · obtain ⟨keyword, condition, word, body, alternative, line, last, rfl, hc, hb, ha⟩ := shape_if h
    have alternative_readable := readable_alternative ih ha
    have condition_readable := readable_expression condition hc
    have body_readable := readable_body ih hb
    apply (alternative_readable.item (by simp)).bind
    intro _
    apply (condition_readable.item (by simp)).bind
    intro _
    exact (body_readable.item (by simp)).bind fun _ => .ok
  · obtain ⟨keyword, condition, body, line, last, rfl, hc, hb⟩ := shape_while h
    have condition_readable := readable_expression condition hc
    have body_readable := readable_body ih hb
    apply (condition_readable.item (by simp)).bind
    intro _
    exact (body_readable.item (by simp)).bind fun _ => .ok
  · obtain ⟨keyword, _, sign, start, upTo, stop, stepWord, step, body, line, last, rfl,
      ⟨counter, rfl, -⟩, hs, he, hp, hb⟩ := shape_for h
    have start_readable := readable_expression start hs
    have stop_readable := readable_expression stop he
    have step_readable := readable_expression step hp
    have body_readable := readable_body ih hb
    apply (start_readable.item (by simp)).bind
    intro _
    apply (stop_readable.item (by simp)).bind
    intro _
    apply (step_readable.item (by simp)).bind
    intro _
    exact (body_readable.item (by simp)).bind fun _ => .ok
  · obtain ⟨keyword, subject, opening, arms, default, closing, line, last, rfl, hs, -, ha, hd⟩ :=
      shape_case h
    have subject_readable := readable_expression subject hs
    have arms_readable := readable_arms ih default ha
    have default_readable := readable_default ih arms hd
    apply (arms_readable.item (by simp)).bind
    intro _
    apply (default_readable.item (by simp)).bind
    intro _
    exact (subject_readable.item (by simp)).bind fun _ => .ok
  · obtain ⟨keyword, body, line, word, condition, rfl, hb, hc⟩ := shape_do h
    have body_readable := readable_body ih hb
    have condition_readable := readable_expression condition hc
    apply (body_readable.item (by simp)).bind
    intro _
    exact (condition_readable.item (by simp)).bind fun _ => .ok
  · obtain ⟨keyword, target, sign, value, rfl, ht, hv⟩ := shape_set h
    have target_readable := readable_target ht
    have value_readable := readable_expression value hv
    apply (target_readable.item (by simp)).bind
    intro _
    exact (value_readable.item (by simp)).bind fun _ => .ok
  · obtain ⟨keyword, first, rest, file, rfl, hf, hr, hc⟩ := shape_input h
    have names_readable := readable_names hf hr
    have file_readable : Readable P file (file.part "input" (Atom.ofClause "input")) :=
      readable_fileClause hc
    apply (names_readable.item (by simp)).bind
    intro _
    exact (file_readable.item (by simp)).bind fun _ => .ok
  · obtain ⟨keyword, first, rest, file, rfl, hf, hr, hc⟩ := shape_output h
    have values_readable : Readable P (.seq (first :: rest))
        (Expression.ofTrees (SyntaxTree.primaries (first :: rest))) := by
      rw [Expression.ofTrees_eq]
      exact .series fun tree member =>
        readable_expression tree (primaries_of_alternating hf hr tree member)
    have file_readable : Readable P file (file.part "output" (Atom.ofClause "output")) :=
      readable_fileClause hc
    apply (values_readable.item (by simp)).bind
    intro _
    exact (file_readable.item (by simp)).bind fun _ => .ok
  · obtain ⟨keyword, _, path, rfl, ⟨name, rfl, -⟩, hp⟩ := shape_open h
    have path_readable := readable_atom readable_expression hp
    exact (path_readable.item (by simp)).bind fun _ => .ok
  · obtain ⟨keyword, _, rfl, name, rfl, -⟩ := shape_close h
    exact .ok

theorem readable_statement :
    ∀ tree, Of P n "stmt" tree → Readable P tree (Statement.ofTree tree) := by
  induction n with
  | zero => exact fun _ h => absurd h not_shaped_zero
  | succ n ih =>
    intro tree h
    obtain ⟨name, member, value, rfl, hv⟩ | ⟨value, rfl, hv⟩ := shape_statement h
    · exact readable_form ih member hv
    · exact .tagged ((readable_term readable_expression hv).bind fun _ => .ok)

/-! ## Programs -/

theorem readable_lines (h : Of P n "declarations" tree) :
    Readable P tree (Declaration.ofLines tree) := by
  obtain ⟨keyword, lines, rfl, hl⟩ := shape_declarations h
  have lines_readable : Readable P (.seq lines) (lines.mapM Declaration.ofTree) :=
    .items fun line member => readable_declaration (hl line member)
  exact lines_readable.item (by simp)

theorem readable_block (h : Of P n "mainbody" tree) : Readable P tree (Block.ofTree tree) := by
  obtain ⟨opening, declarations, first, rest, closing, line, rfl, hd, hf, hr⟩ := shape_mainBody h
  have declarations_readable :
      Readable P declarations (declarations.part "mainbody" Declaration.ofLines) := by
    refine .part ?_
    obtain rfl | ⟨part, rfl, hp⟩ := hd
    · exact .inl rfl
    · exact .inr ⟨part, rfl, readable_lines hp⟩
  have first_readable : Readable P first (first.part "mainbody" Statement.ofTree) := by
    refine .part ?_
    obtain rfl | ⟨statement, rfl, hs⟩ := hf
    · exact .inl rfl
    · exact .inr ⟨statement, rfl, readable_statement statement hs⟩
  have rest_readable : Readable P (.seq rest) (Statement.ofSeries (rest.drop 1)) := by
    rw [Statement.ofSeries_eq]
    cases hr with
    | nil => exact .ok
    | cons _ second more =>
      refine .mapM fun tree member => ?_
      have shaped := primaries_of_alternating second more tree member
      have within := SyntaxTree.mem_of_mem_primaries member
      exact (readable_statement tree shaped).item (List.mem_cons_of_mem _ within)
  apply (declarations_readable.item (by simp)).bind
  intro _
  apply (first_readable.item (by simp)).bind
  intro _
  exact (rest_readable.item (by simp)).bind fun _ => .ok

theorem readable_procedure (h : Of P n "procedure" tree) :
    Readable P tree (Procedure.ofTree tree) := by
  obtain ⟨_, parameters, body, last, rfl, ⟨name, rfl, -⟩, hp, hb⟩ := shape_procedure h
  have parameters_readable : Readable P (.seq parameters) (parameters.mapM Predicate.ofTree) :=
    .items fun parameter member => readable_predicate (hp parameter member)
  have body_readable := readable_block hb
  apply (parameters_readable.item (by simp)).bind
  intro _
  exact (body_readable.item (by simp)).bind fun _ => .ok

theorem readable_entry (h : Of P n "start" tree) : Readable P tree (Block.ofEntry tree) := by
  obtain ⟨keyword, body, last, rfl, hb⟩ := shape_start h
  exact (readable_block hb).item (by simp)

theorem Readable.foldlM {α : Type} {add : α → SyntaxTree → Except Cause α}
    {items : List SyntaxTree} (h : ∀ item ∈ items, ∀ a, Readable P tree (add a item)) (a : α) :
    Readable P tree (items.foldlM add a) := by
  induction items generalizing a with
  | nil => exact .ok
  | cons item items ih =>
    obtain ⟨here, rest⟩ := List.forall_mem_cons.mp h
    rw [List.foldlM_cons]
    exact (here a).bind (ih rest)

theorem readable_file (h : Of P n "file" tree) (shallow : tree.depth ≤ Program.maxTreeDepth) :
    Readable P tree (Program.ofTree tree) := by
  obtain ⟨items, rfl, all⟩ := shape_file h
  rw [Program.ofTree, if_neg (Nat.not_lt.mpr shallow)]
  refine Readable.foldlM (fun item member program => ?_) _
  refine Readable.item ?_ member
  obtain ⟨value, ⟨rfl, hv⟩ | ⟨rfl, hv⟩ | ⟨rfl, -⟩⟩ := all item member
  · exact .tagged ((readable_entry hv).bind fun _ => .ok)
  · exact .tagged ((readable_procedure hv).bind fun _ => .ok)
  · exact .ok

end PseudoLang
