import PseudoLang.Proofs.Grammar.Yield
import PseudoLang.Proofs.Language.Rendering.Sequences
import PseudoLang.Proofs.Language.Spelling

/-!
Expressions are read without loss. What is read from the tree of an expression is written as the
tokens that the tree was derived from, so that only the spelling of numbers is lost, and the
operators stand where their powers put them.
-/

namespace PseudoLang

open Grammar Grammar.Language
open Precedence (Element OperatorTree)
open Sign (between separated)

/-- What is read from the tree is well formed, and is written as these tokens. -/
def Rereads {α : Type} (read : SyntaxTree → Except Cause α) (wellFormed : α → Prop)
    (signs : α → List Sign) (terminals : List Terminal) (tree : SyntaxTree) : Prop :=
  Gives (read tree) fun value =>
    wellFormed value ∧ List.Forall₂ Sign.Matches (signs value) terminals

/-- Tokens of a source, and a tree of a rule of the language for them. -/
abbrev Reading (n : Nat) (rule : Rule) (terminals : List Terminal) (tree : SyntaxTree) : Prop :=
  Yields table Terminal.Genuine n rule terminals tree

variable {n : Nat} {terminals : List Terminal} {tree : SyntaxTree}

/-! ## Between delimiters -/

section

variable {α : Type} {read : SyntaxTree → Except Cause α} {wellFormed : α → Prop}
  {signs : α → List Sign}

theorem rereads_each {parts : List (List Terminal)} {trees : List SyntaxTree} {values : List α}
    (h : List.Forall₂ (Rereads read wellFormed signs) parts trees)
    (all : trees.mapM read = .ok values) :
    (∀ value ∈ values, wellFormed value) ∧
      List.Forall₂ Sign.Matches (values.map signs).flatten parts.flatten := by
  have each := forall₂_of_mapM h all
  obtain ⟨wf, matched⟩ := (List.forall₂_and_left _ _).mp each
  exact ⟨wf, List.rel_flatten (List.forall₂_map_left_iff.mpr matched)⟩

variable {left right separator : String} {leftError rightError error : Option String}
  {element : Rule}

theorem matches_between {opening inside closing : List Terminal} {before after : SyntaxTree}
    {written : List Sign} (closed : left ∉ openKinds ∧ right ∉ openKinds)
    (opens : Reading n (.token left leftError) opening before)
    (closes : Reading n (.token right rightError) closing after)
    (matched : List.Forall₂ Sign.Matches written inside) :
    List.Forall₂ Sign.Matches (between left written right) (opening ++ inside ++ closing) := by
  obtain ⟨_, rfl, -, first⟩ := opens.token
  obtain ⟨_, rfl, -, last⟩ := closes.token
  have opening_matches := Sign.matches_mark closed.1 first
  have closing_matches := Sign.matches_mark closed.2 last
  have inner := List.rel_append matched (.cons closing_matches .nil)
  simpa [between] using List.Forall₂.cons opening_matches inner

theorem rereads_enclosed
    (h : Reading n (.delimited (.token left leftError) (.token right rightError) none element error)
      terminals tree)
    (closed : left ∉ openKinds ∧ right ∉ openKinds)
    (inner : ∀ inside, Reading n element inside tree →
      Rereads read wellFormed signs inside tree) :
    Rereads read wellFormed (fun value => between left (signs value) right) terminals tree := by
  obtain ⟨opening, inside, closing, before, after, rfl, opens, derived, closes⟩ := h.enclosed
  intro value reads
  obtain ⟨wf, matched⟩ := inner inside derived value reads
  exact ⟨wf, matches_between closed opens closes matched⟩

/-- An item together with the separator before it. -/
theorem rereads_after (h : YieldsAfter table Terminal.Genuine n (token separator) element terminals
      tree) (closed : separator ∉ openKinds)
    (inner : ∀ part, Reading n element part tree → Rereads read wellFormed signs part tree) :
    Rereads read wellFormed (fun value => .mark separator :: signs value) terminals tree := by
  obtain ⟨before, here, kept, rfl, separates, derived⟩ := h
  obtain ⟨_, rfl, -, first⟩ := separates.token
  intro value reads
  obtain ⟨wf, matched⟩ := inner here derived value reads
  exact ⟨wf, .cons (Sign.matches_mark closed first) matched⟩

/-- Items between delimiters, with separators between them. -/
theorem rereads_listed
    (h : Reading n (.delimited (.token left leftError) (.token right rightError)
      (some (token separator)) element error) terminals tree)
    (closed : left ∉ openKinds ∧ right ∉ openKinds) (apart : separator ∉ openKinds)
    (inner : ∀ part tree, Reading n element part tree →
      Rereads read wellFormed signs part tree) :
    ∃ trees, tree = .seq trees ∧ ∀ values, trees.mapM read = .ok values →
      (∀ value ∈ values, wellFormed value) ∧
      List.Forall₂ Sign.Matches
        (between left (separated (.mark separator) (values.map signs)) right) terminals := by
  obtain ⟨opening, inside, closing, before, after, trees, rfl, rfl, opens, closes, content⟩ :=
    h.listed
  refine ⟨trees, rfl, ?_⟩
  intro values all
  obtain ⟨rfl, rfl⟩ | ⟨first, rounds, tree, more, rfl, rfl, derived, yields⟩ := content
  · cases all
    exact ⟨by simp, matches_between closed opens closes .nil⟩
  · rw [List.mapM_cons] at all
    obtain ⟨value, here, all⟩ := bind_eq_ok.mp all
    obtain ⟨rest, there, all⟩ := bind_eq_ok.mp all
    cases all
    have each := yields.imp fun round tree after => rereads_after after apart fun part =>
      inner part tree
    obtain ⟨wf, matched⟩ := inner first tree derived value here
    obtain ⟨rest_wf, rest_matched⟩ := rereads_each each there
    refine ⟨List.forall_mem_cons.mpr ⟨wf, rest_wf⟩, matches_between closed opens closes ?_⟩
    have whole := List.rel_append matched rest_matched
    simpa [separated, List.flatMap_def, Function.comp_def] using whole

end

/-! ## Terms -/

/-- Every expression is read without loss, with fewer than `n` rules inside each other. -/
def RereadsExpressions (n : Nat) : Prop :=
  ∀ terminals tree, Reading n (rule "expr") terminals tree →
    Rereads Expression.ofTree Expression.WellFormed Expression.signs terminals tree

/-- Every number is read from a text that stands for it, and every other literal is its text. -/
theorem rereads_literal {tag kind value : String} (member : (tag, kind) ∈ literals)
    (genuine : Terminal.Genuine (kind, value)) :
    Rereads Atom.ofTree Atom.WellFormed Atom.signs [(kind, value)]
      (.tagged tag (.token kind value)) := by
  intro atom reads
  simp only [literals, List.mem_cons, Prod.mk.injEq, List.not_mem_nil, or_false] at member
  obtain ⟨rfl, rfl⟩ | ⟨rfl, rfl⟩ | ⟨rfl, rfl⟩ | ⟨rfl, rfl⟩ | ⟨rfl, rfl⟩ := member
  · cases reads
    exact ⟨trivial, .cons ⟨rfl, rfl, by simp [Sign.text?]⟩ .nil⟩
  · rw [Atom.ofTree, SyntaxTree.text, ok_bind] at reads
    obtain ⟨number, found, reads⟩ := bind_eq_ok.mp reads
    cases reads
    exact ⟨trivial, .cons ⟨rfl, Number.read_of_ofText found, by simp [Sign.text?]⟩ .nil⟩
  · rw [Atom.ofTree, SyntaxTree.text, ok_bind] at reads
    obtain ⟨number, found, reads⟩ := bind_eq_ok.mp reads
    cases reads
    exact ⟨trivial, .cons ⟨rfl, Number.read_of_ofText found, by simp [Sign.text?]⟩ .nil⟩
  · cases reads
    exact ⟨trivial, .cons ⟨rfl, rfl, by simp [Sign.text?]⟩ .nil⟩
  · cases reads
    exact ⟨trivial, .cons (Sign.matches_bool genuine) .nil⟩

section

variable (ih : RereadsExpressions n)

include ih

theorem rereads_expressions {left right : String} {leftError rightError error : Option String}
    (h : Reading n (.delimited (.token left leftError) (.token right rightError)
      (some (token ",")) (rule "expr") error) terminals tree)
    (closed : left ∉ openKinds ∧ right ∉ openKinds) :
    ∃ trees, tree = .seq trees ∧ ∀ values, Expression.ofTrees trees = .ok values →
      Expression.AllWellFormed values ∧
      List.Forall₂ Sign.Matches
        (between left (separated (.mark ",") (Expression.signsOfEach values)) right) terminals := by
  obtain ⟨trees, rfl, reads⟩ := rereads_listed h closed (by decide) ih
  refine ⟨trees, rfl, ?_⟩
  intro values all
  rw [Expression.ofTrees_eq] at all
  rw [Expression.allWellFormed_iff, Expression.signsOfEach_eq]
  exact reads values all

theorem rereads_atom (h : Reading n (rule "atom") terminals tree) :
    Rereads Atom.ofTree Atom.WellFormed Atom.signs terminals tree := by
  obtain ⟨tag, inner, value, member, rfl, derived⟩ := (h.body rfl).choice
  simp only [List.mem_cons, Prod.mk.injEq, List.not_mem_nil, or_false] at member
  obtain ⟨rfl, rfl⟩ | ⟨rfl, rfl⟩ | ⟨rfl, rfl⟩ | ⟨rfl, rfl⟩ | ⟨rfl, rfl⟩ | ⟨rfl, rfl⟩ |
    ⟨rfl, rfl⟩ := member
  · intro atom reads
    obtain ⟨expression, here, reads⟩ := bind_eq_ok.mp reads
    cases reads
    exact rereads_enclosed derived (by decide) (fun inside => ih inside value) expression here
  · obtain ⟨trees, rfl, each⟩ := rereads_expressions ih derived (by decide)
    intro atom reads
    obtain ⟨expressions, here, reads⟩ := bind_eq_ok.mp reads
    cases reads
    exact each expressions here
  all_goals
    obtain ⟨text, rfl, rfl, genuine⟩ := derived.token
    exact rereads_literal (by simp [literals]) genuine

theorem rereads_suffix (h : Reading n (rule "suffix") terminals tree) :
    Rereads Suffix.ofTree Suffix.WellFormed Suffix.signs terminals tree := by
  obtain ⟨tag, inner, value, member, rfl, derived⟩ := (h.body rfl).choice
  simp only [List.mem_cons, Prod.mk.injEq, List.not_mem_nil, or_false] at member
  obtain ⟨rfl, rfl⟩ | ⟨rfl, rfl⟩ := member
  · intro suffix reads
    obtain ⟨index, here, reads⟩ := bind_eq_ok.mp reads
    cases reads
    exact rereads_enclosed (derived.body rfl) (by decide) (fun inside => ih inside value) index here
  · obtain ⟨trees, rfl, each⟩ := rereads_expressions ih (derived.body rfl) (by decide)
    intro suffix reads
    obtain ⟨arguments, here, reads⟩ := bind_eq_ok.mp reads
    cases reads
    exact each arguments here

/-- A term without suffixes is its atom. -/
theorem rereads_term (h : Reading n (rule "term") terminals tree) :
    Rereads Expression.ofTerm Expression.WellFormed Expression.signs terminals tree := by
  obtain ⟨_, rfl, parts⟩ := (h.body rfl).sequence
  obtain ⟨first, _, head, _, rfl, rfl, heads, rest, _, suffixes, _, rfl, rfl, follows, rfl, rfl⟩ :=
    parts
  obtain ⟨parts, trees, rfl, rfl, each⟩ := follows.many
  intro term reads
  rw [Expression.ofTerm] at reads
  obtain ⟨atom, here, reads⟩ := bind_eq_ok.mp reads
  obtain ⟨atom_wf, atom_matches⟩ := rereads_atom ih heads atom here
  cases each with
  | nil =>
    cases reads
    refine ⟨atom_wf, ?_⟩
    simpa [Expression.signs] using atom_matches
  | cons one more =>
    obtain ⟨values, there, reads⟩ := bind_eq_ok.mp reads
    cases reads
    rw [Suffix.ofTrees_eq] at there
    have each := List.Forall₂.cons (rereads_suffix ih one)
      (more.imp fun _ _ suffix => rereads_suffix ih suffix)
    obtain ⟨values_wf, values_match⟩ := rereads_each each there
    have some : values ≠ [] := by
      rintro rfl
      have same := (forall₂_of_mapM each there).length_eq
      cases same
    refine ⟨⟨some, atom_wf, Suffix.allWellFormed_iff.mpr values_wf⟩, ?_⟩
    have whole := List.rel_append atom_matches values_match
    simpa [Expression.signs, Suffix.signsOfEach_eq] using whole

end

/-! ## Operators -/

theorem isTerm_of_ofTerm {term : Expression} (h : Expression.ofTerm tree = .ok term) :
    term.IsTerm := by
  unfold Expression.ofTerm at h
  split at h
  · obtain ⟨atom, -, h⟩ := bind_eq_ok.mp h
    split at h
    · cases h
      trivial
    · obtain ⟨values, -, h⟩ := bind_eq_ok.mp h
      cases h
      trivial
    · cases h
  · cases h

theorem Expression.skeleton_of_isTerm {term : Expression} (h : term.IsTerm) :
    term.skeleton = .term term := by
  cases term with
  | binary => exact h.elim
  | unary => exact h.elim
  | applied | atom => rfl

/-- What is read from terms joined by operators has these operators over what is read from the
terms. -/
theorem alike_of_ofTree {operators : OperatorTree SyntaxTree}
    (leaves : ∀ leaf, .term leaf ∈ operators.walk → ∃ value, leaf = .tagged "term" value) :
    ∀ {expression : Expression},
      Expression.ofTree (Grammar.Filter.join operators) = .ok expression →
        expression.skeleton.Alike ReadsTerm operators := by
  induction operators with
  | term leaf =>
    intro expression reads
    obtain ⟨value, rfl⟩ := leaves leaf List.mem_cons_self
    rw [Grammar.Filter.join, Expression.ofTree, if_pos rfl] at reads
    rw [Expression.skeleton_of_isTerm (isTerm_of_ofTerm reads)]
    exact .term ⟨value, rfl, reads⟩
  | binary operator left right ihl ihr =>
    intro expression reads
    rw [Grammar.Filter.join, Expression.ofTree] at reads
    obtain ⟨first, left_reads, reads⟩ := bind_eq_ok.mp reads
    obtain ⟨second, right_reads, reads⟩ := bind_eq_ok.mp reads
    cases reads
    have left_alike := ihl (fun leaf hm => leaves leaf (by simp [OperatorTree.walk, hm])) left_reads
    have right_alike :=
      ihr (fun leaf hm => leaves leaf (by simp [OperatorTree.walk, hm])) right_reads
    exact .binary operator left_alike right_alike
  | unary operator operand ih =>
    intro expression reads
    rw [Grammar.Filter.join, Expression.ofTree] at reads
    obtain ⟨inner, operand_reads, reads⟩ := bind_eq_ok.mp reads
    cases reads
    have alike := ih (fun leaf hm => leaves leaf (by simp [OperatorTree.walk, hm])) operand_reads
    exact .unary operator alike

/-- An expression is well formed if its operators are where they belong and its terms are well
formed. -/
theorem Expression.wellFormed_of_canonical (expression : Expression)
    (known : expression.skeleton.Known .language)
    (canonical : expression.skeleton.Canonical .language)
    (terms : ∀ term, .term term ∈ expression.skeleton.walk → term.WellFormed) :
    expression.WellFormed := by
  fun_induction Expression.skeleton expression with
  | case1 operator left right ihl ihr =>
    have left_wf := ihl known.2.1 canonical.2.2.1 fun term hm =>
      terms term (by simp [OperatorTree.walk, hm])
    have right_wf := ihr known.2.2 canonical.2.2.2 fun term hm =>
      terms term (by simp [OperatorTree.walk, hm])
    exact ⟨⟨known, canonical⟩, left_wf, right_wf⟩
  | case2 operator operand ih =>
    have operand_wf := ih known.2 canonical.2 fun term hm =>
      terms term (by simp [OperatorTree.walk, hm])
    exact ⟨⟨known, canonical⟩, operand_wf⟩
  | case3 term => exact terms term List.mem_cons_self

/-- How an element of a sequence is read and written. -/
def ElementMatches (element : Element Expression) (terminals : List Terminal) : Prop :=
  (∀ term, element = .term term → term.WellFormed) ∧
    List.Forall₂ Sign.Matches (elementSigns element) terminals

theorem rereads_item (ih : RereadsExpressions n) {item : SyntaxTree} {element : Element Expression}
    (h : Reading n itemRule terminals item) (reads : ReadsElement element item) :
    ElementMatches element terminals := by
  have operator {kind value : String} (genuine : Terminal.Genuine (kind, value))
      (same : kind = "op" ∨ kind = "=") : ElementMatches (.operator value) [(kind, value)] :=
    ⟨by simp, .cons (Sign.matches_operator genuine same) .nil⟩
  obtain ⟨tag, inner, value, member, rfl, derived⟩ := h.choice
  simp only [List.mem_cons, Prod.mk.injEq, List.not_mem_nil, or_false] at member
  obtain ⟨rfl, rfl⟩ | ⟨rfl, rfl⟩ | ⟨rfl, rfl⟩ := member
  · obtain ⟨value, same, read⟩ | _ := reads
    cases same
    obtain ⟨wf, matched⟩ := rereads_term ih derived _ read
    refine ⟨?_, matched⟩
    rintro _ ⟨⟩
    exact wf
  · obtain ⟨text, rfl, rfl, genuine⟩ := derived.token
    cases reads
    exact operator genuine (.inl rfl)
  · obtain ⟨text, rfl, rfl, genuine⟩ := derived.token
    cases reads
    exact operator genuine (.inr rfl)

/-! ## Expressions -/

theorem rereads_expression (n : Nat) : RereadsExpressions n := by
  induction n with
  | zero => exact fun _ _ h => absurd h not_yields_zero
  | succ n ih =>
    intro terminals tree h expression reads
    obtain ⟨filter, value, named, filtered, derived⟩ := (h.reference rfl).filter
    cases named
    obtain ⟨-, _, operators, same, rfl, walk, known, canonical⟩ :=
      Grammar.Filter.precedence_eq_ok filtered
    obtain ⟨parts, items, rfl, rfl, each⟩ := derived.many
    cases same
    obtain ⟨_, same, shaped⟩ := shape_items derived.shaped
    cases same
    have leaves : ∀ leaf, .term leaf ∈ operators.walk →
        ∃ value, leaf = .tagged "term" value := by
      intro leaf member
      rw [walk, List.mem_map] at member
      obtain ⟨item, hi, element⟩ := member
      obtain ⟨value, tagged, -⟩ := (shaped item hi).term element
      exact ⟨value, tagged⟩
    have alike := alike_of_ofTree leaves reads
    have sequence := alike.walk
    rw [walk, List.forall₂_map_right_iff] at sequence
    have matched : List.Forall₂ ElementMatches expression.skeleton.walk parts :=
      Precedence.forall₂_through sequence each fun _ _ _ element item =>
        rereads_item ih item element
    constructor
    · apply expression.wellFormed_of_canonical (alike.flip.known known)
        (alike.flip.canonical canonical)
      intro term member
      obtain ⟨part, -, wf, -⟩ := Precedence.exists_of_mem_forall₂ matched member
      exact wf term rfl
    · rw [expression.signs_eq_walk]
      exact List.rel_flatten (List.forall₂_map_left_iff.mpr (matched.imp fun _ _ both => both.2))

/-- What the grammar sees of the tokens from one cursor up to another. -/
def terminalsBetween (tokens : Array Token) (first last : Nat) : List Terminal :=
  (tokens.extract first last).toList.map Token.terminal

/-- From one cursor up to another, the tokens are an expression. -/
def ExpressionAt (tokens : Array Token) (cursor stop : Nat) (expression : Expression) : Prop :=
  ∃ file context tree,
    (((languageParser tokens file).parseRule cursor "expr").runFrom context).1 =
      .ok (some (stop, tree)) ∧
    Expression.ofTree tree = .ok expression

theorem Expression.signs_ne_nil (expression : Expression) : expression.signs ≠ [] := by
  cases expression with
  | binary operator left right => simp [Expression.signs]
  | unary operator operand => simp [Expression.signs]
  | applied head suffixes =>
    obtain ⟨sign, more, begins, -⟩ := signs_of_atom head
    simp [Expression.signs, begins]
  | atom value =>
    obtain ⟨sign, more, begins, -⟩ := signs_of_atom value
    simp [Expression.signs, begins]

variable {source file : String} {tokens : Array Token} {cursor stop : Nat}
  {expression : Expression}

theorem matches_of_expressionAt (ht : tokenize source file = .ok tokens)
    (h : ExpressionAt tokens cursor stop expression) :
    stop ≤ max cursor tokens.size ∧ expression.WellFormed ∧
      List.Forall₂ Sign.Matches expression.signs (terminalsBetween tokens cursor stop) := by
  obtain ⟨other, context, tree, run, reads⟩ := h
  have evaluates := Parser.derives_of_evaluateWithin (languageParser tokens other)
    (maxDepth - context.depth) cursor (rule "expr") context
  have derived : (languageParser tokens other).Derived (Derives table (maxDepth - context.depth))
      cursor (rule "expr") (some (stop, tree)) := by
    have same : ((languageParser tokens other).evaluateWithin (maxDepth - context.depth) cursor
        (rule "expr")).runFrom context =
        ((languageParser tokens other).parseRule cursor "expr").runFrom context := rfl
    rw [same, run] at evaluates
    exact evaluates
  obtain ⟨terminals, spans, derives⟩ := derived stop tree rfl
  have whole : terminals = terminalsBetween tokens cursor stop := spans.terminals_eq
  have genuine : ∀ terminal ∈ terminals, terminal.Genuine := by
    intro terminal member
    rw [whole, terminalsBetween, List.mem_map] at member
    obtain ⟨token, within, rfl⟩ := member
    rw [Array.toList_extract] at within
    have inside := List.mem_of_mem_drop (List.mem_of_mem_take within)
    exact genuine_of_tokenize ht token (Array.mem_toList_iff.mp inside)
  have reading : Reading (maxDepth - context.depth + 1) (rule "expr") terminals tree :=
    ⟨_, Nat.lt_succ_self _, genuine, derives⟩
  rw [← whole]
  exact ⟨spans.inside, rereads_expression _ terminals tree reading expression reads⟩

/-- The tokens of an expression are what it is written as, but for the spelling of its numbers, and
all of its operators are where their powers put them. Hence other tokens are another expression. -/
theorem expression_lossless (ht : tokenize source file = .ok tokens)
    (h : ExpressionAt tokens cursor stop expression) :
    (cursor < stop ∧ stop ≤ tokens.size) ∧ expression.WellFormed ∧
      List.Forall₂ Sign.Matches expression.signs (terminalsBetween tokens cursor stop) ∧
      ∀ {source' file' : String} {tokens' : Array Token} {cursor' stop' : Nat},
        tokenize source' file' = .ok tokens' → ExpressionAt tokens' cursor' stop' expression →
        List.Forall₂ Terminal.Respelled (terminalsBetween tokens cursor stop)
          (terminalsBetween tokens' cursor' stop') := by
  obtain ⟨inside, wf, matched⟩ := matches_of_expressionAt ht h
  have length := matched.length_eq
  have some := List.length_pos_iff.mpr expression.signs_ne_nil
  rw [length, terminalsBetween, List.length_map, Array.length_toList, Array.size_extract] at some
  refine ⟨⟨by omega, by omega⟩, wf, matched, ?_⟩
  intro source' file' tokens' cursor' stop' ht' h'
  obtain ⟨-, -, matched'⟩ := matches_of_expressionAt ht' h'
  exact Sign.forall₂_respelled matched matched'

/-- An expression with a group, a list, a subscript and a call, and with a number that is spelled
in its own way. -/
def nestedCall : String := "a[0] * NOT f((b = 007), [])"

theorem expression_lossless_nestedCall : ∃ tokens expression,
    tokenize nestedCall = .ok tokens ∧ ExpressionAt tokens 0 17 expression ∧
    (0 < 17 ∧ 17 ≤ tokens.size) ∧ expression.WellFormed ∧
    List.Forall₂ Sign.Matches expression.signs (terminalsBetween tokens 0 17) ∧
    ∀ {source' file' : String} {tokens' : Array Token} {cursor' stop' : Nat},
      tokenize source' file' = .ok tokens' → ExpressionAt tokens' cursor' stop' expression →
      List.Forall₂ Terminal.Respelled (terminalsBetween tokens 0 17)
        (terminalsBetween tokens' cursor' stop') := by
  have tokenized : (tokenize nestedCall).isOk = true := by decide +kernel
  obtain ⟨tokens, ht⟩ := exists_of_isOk tokenized
  have reads : (match (((languageParser ((tokenize nestedCall).toOption.getD #[])
        defaultFile).parseRule 0 "expr").runFrom .initial).1 with
      | .ok (some (stop, tree)) => stop == 17 && (Expression.ofTree tree).isOk
      | .ok none => false
      | .error _ => false) = true := by decide +kernel
  rw [ht, Except.toOption, Option.getD_some] at reads
  split at reads
  · rename_i stop tree run
    rw [Bool.and_eq_true, beq_iff_eq] at reads
    obtain ⟨rfl, readable⟩ := reads
    obtain ⟨expression, hr⟩ := exists_of_isOk readable
    have here : ExpressionAt tokens 0 17 expression := ⟨defaultFile, .initial, tree, run, hr⟩
    exact ⟨tokens, expression, ht, here, expression_lossless ht here⟩
  · cases reads
  · cases reads

end PseudoLang
