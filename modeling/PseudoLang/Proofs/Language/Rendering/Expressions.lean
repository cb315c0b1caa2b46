import PseudoLang.FrontEnd
import PseudoLang.Proofs.Grammar.Rounds
import PseudoLang.Proofs.Language.Rendering
import PseudoLang.Proofs.Language.Shape
import PseudoLang.Proofs.Program.OfTree

/-!
Written expressions are taken by their rules and read back. An expression takes all that could
continue it, so that what comes after it must not; the sequence that it leaves is joined by
precedence into the tree that it was written from.
-/

namespace PseudoLang

open Grammar Grammar.Language Grammar.Parser
open Precedence (Element OperatorTree)
open Sign (between separated)

variable {tokens : Array Token} {file : String} {n : Nat}

/-! ## Where expressions begin -/

/-- The alternatives of an atom, with the kinds that they begin with. -/
def atomFirsts : List (String × List String) :=
  [("group", ["("]), ("list", ["["]), ("name", ["name"]), ("num", ["literal_num"]),
    ("float", ["literal_float"]), ("string", ["literal_string"]), ("bool", ["literal_bool"])]

def atomStarts : List String :=
  ["(", "[", "name", "literal_num", "literal_float", "literal_string", "literal_bool"]

def suffixFirsts : List (String × List String) := [("subscript", ["["]), ("call", ["("])]

def suffixStarts : List String := ["[", "("]

def itemFirsts : List (String × List String) :=
  [("term", atomStarts), ("op", ["op"]), ("eq", ["="])]

/-- What would continue an expression. -/
def expressionStarts : List String := "op" :: "=" :: atomStarts

theorem heads_atom :
    Heads (languageParser tokens file) n (alternativesOf Language.atom) atomFirsts := by
  have here (kind : String) :
      (languageParser tokens file).Leaves n (token kind) (Clear [kind]) := .token List.mem_cons_self
  exact .cons (here "(").delimited <| .cons (here "[").delimited <| .cons (here _) <|
    .cons (here _) <| .cons (here _) <| .cons (here _) <| .cons (here _) .nil

theorem leaves_atom :
    (languageParser tokens file).Leaves n (rule "atom") (Clear atomStarts) :=
  .reference rfl (heads_atom.leaves (by decide))

theorem leaves_term : (languageParser tokens file).Leaves n (rule "term") (Clear atomStarts) :=
  .reference rfl leaves_atom.sequence

theorem leaves_subscript :
    (languageParser tokens file).Leaves n (rule "subscript") (Clear ["["]) :=
  .reference rfl (Leaves.token List.mem_cons_self).delimited

theorem leaves_call : (languageParser tokens file).Leaves n (rule "call") (Clear ["("]) :=
  .reference rfl (Leaves.token List.mem_cons_self).delimited

theorem heads_suffix :
    Heads (languageParser tokens file) n (alternativesOf Language.suffix) suffixFirsts :=
  .cons leaves_subscript (.cons leaves_call .nil)

theorem leaves_suffix :
    (languageParser tokens file).Leaves n (rule "suffix") (Clear suffixStarts) :=
  .reference rfl (heads_suffix.leaves (by decide))

/-- An item of the flat sequence of an expression. -/
def itemRule : Rule := anyOf [("term", rule "term"), ("op", token "op"), ("eq", token "=")]

theorem heads_item :
    Heads (languageParser tokens file) n (alternativesOf itemRule) itemFirsts :=
  .cons leaves_term <| .cons (.token List.mem_cons_self) <| .cons (.token List.mem_cons_self) .nil

theorem leaves_item :
    (languageParser tokens file).Leaves n itemRule (Clear expressionStarts) :=
  heads_item.leaves (by decide)

theorem leaves_expression :
    (languageParser tokens file).Leaves n (rule "expr") (Clear expressionStarts) :=
  .reference rfl (.filter (.noRounds leaves_item))

/-! ## Terms -/

theorem takes_atom_as {inner : Rule} {sign : Sign} {more : List Sign} {follow : List Sign → Prop}
    {reads : SyntaxTree → Prop} (tag : String)
    (member : (tag, inner) ∈ alternativesOf Language.atom)
    (unique : ∀ entry ∈ atomFirsts, sign.kind ∈ entry.2 → entry.1 = tag)
    (h : (languageParser tokens file).Takes n inner (sign :: more) follow reads) :
    (languageParser tokens file).Takes n (rule "atom") (sign :: more) follow
      (fun tree => ∃ value, tree = .tagged tag value ∧ reads value) :=
  Takes.named rfl (Takes.alternative tag heads_atom member (by decide) unique h)

theorem takes_suffix_as {inner : Rule} {sign : Sign} {more : List Sign}
    {follow : List Sign → Prop} {reads : SyntaxTree → Prop} (tag : String)
    (member : (tag, inner) ∈ alternativesOf Language.suffix)
    (unique : ∀ entry ∈ suffixFirsts, sign.kind ∈ entry.2 → entry.1 = tag)
    (h : (languageParser tokens file).Takes n inner (sign :: more) follow reads) :
    (languageParser tokens file).Takes n (rule "suffix") (sign :: more) follow
      (fun tree => ∃ value, tree = .tagged tag value ∧ reads value) :=
  Takes.named rfl (Takes.alternative tag heads_suffix member (by decide) unique h)

section

/-- Every expression is taken by its rule, with fewer than `n` rules inside each other. -/
def TakesExpressions (tokens : Array Token) (file : String) (n : Nat) : Prop :=
  ∀ expression : Expression, expression.WellFormed →
    (languageParser tokens file).Takes n (rule "expr") expression.signs (Clear expressionStarts)
      (fun tree => Expression.ofTree tree = .ok expression)

variable (ih : TakesExpressions tokens file n)

include ih

theorem takes_expressions {expressions : List Expression} {left right : String}
    {leftError rightError error : Option String}
    (wf : Expression.AllWellFormed expressions) (absent : right ∉ expressionStarts)
    (ends : right ≠ ",") :
    (languageParser tokens file).Takes n
      (.delimited (.token left leftError) (.token right rightError) (some (token ","))
        (rule "expr") error)
      (between left (separated (.mark ",") (Expression.signsOfEach expressions)) right)
      (fun _ => True)
      (fun tree => ∃ trees, tree = .seq trees ∧ Expression.ofTrees trees = .ok expressions) := by
  rw [Expression.signsOfEach_eq]
  have each := fun expression member => ih expression (Expression.allWellFormed_iff.mp wf _ member)
  apply (Takes.listed each leaves_expression absent (by decide) absent ends).reading
  rintro _ ⟨trees, rfl, all⟩
  refine ⟨trees, rfl, ?_⟩
  rw [Expression.ofTrees_eq]
  exact mapM_of_forall₂ all

theorem takes_subscript {index : Expression} (wf : index.WellFormed) :
    (languageParser tokens file).Takes n (rule "subscript") (between "[" index.signs "]")
      (fun _ => True) (fun tree => Expression.ofTree tree = .ok index) :=
  Takes.named rfl (Takes.enclosed (ih index wf) (fun _ => clear_mark (by decide)))

theorem takes_suffix {suffix : Suffix} (wf : suffix.WellFormed) :
    (languageParser tokens file).Takes n (rule "suffix") suffix.signs (fun _ => True)
      (fun tree => Suffix.ofTree tree = .ok suffix) := by
  cases suffix with
  | subscript index =>
    refine (takes_suffix_as "subscript" (.head _) (by decide) (takes_subscript ih wf)).mono
      (fun _ h => h) ?_
    rintro _ ⟨value, rfl, read⟩
    rw [Suffix.ofTree, read]
    rfl
  | call arguments =>
    have call : (languageParser tokens file).Takes n (rule "call") _ (fun _ => True) _ :=
      Takes.named rfl (takes_expressions ih wf (by decide) (by decide))
    apply (takes_suffix_as "call" (.tail _ (.head _)) (by decide) call).reading
    rintro _ ⟨_, rfl, trees, rfl, read⟩
    rw [Suffix.ofTree, read]
    rfl

omit ih in
theorem takes_literal {sign : Sign} (tag kind : String) (same : sign.kind = kind)
    (member : (tag, kind) ∈ literals) :
    (languageParser tokens file).Takes n (rule "atom") [sign] (fun _ => True)
      (fun tree => ∃ value, tree = .tagged tag (.token kind value) ∧ sign.Spells value) := by
  have alternative : ∀ entry ∈ literals,
      (entry.1, token entry.2) ∈ alternativesOf Language.atom := by
    simp [literals, alternativesOf, Language.atom, anyOf]
  have unique : ∀ literal ∈ literals, ∀ entry ∈ atomFirsts, literal.2 ∈ entry.2 →
      entry.1 = literal.1 := by decide
  refine (takes_atom_as tag (alternative _ member) (same ▸ unique _ member)
    (Takes.token same)).reading ?_
  rintro _ ⟨_, rfl, value, rfl, spells⟩
  exact ⟨value, rfl, spells⟩

theorem takes_atom {atom : Atom} (wf : atom.WellFormed) :
    (languageParser tokens file).Takes n (rule "atom") atom.signs (fun _ => True)
      (fun tree => Atom.ofTree tree = .ok atom) := by
  cases atom with
  | name text =>
    apply (takes_literal "name" "name" rfl (by decide)).reading
    rintro _ ⟨value, rfl, rfl⟩
    rfl
  | num number =>
    apply (takes_literal "num" "literal_num" rfl (by decide)).reading
    rintro _ ⟨value, rfl, spells⟩
    have parsed : Number.ofText Number.readInt64? value = .ok number :=
      Number.ofText_of_read spells
    simp only [Atom.ofTree, SyntaxTree.text, ok_bind, parsed]
    rfl
  | float number =>
    apply (takes_literal "float" "literal_float" rfl (by decide)).reading
    rintro _ ⟨value, rfl, spells⟩
    have parsed : Number.ofText Number.Binary64.read? value = .ok number :=
      Number.ofText_of_read spells
    simp only [Atom.ofTree, SyntaxTree.text, ok_bind, parsed]
    rfl
  | string text =>
    apply (takes_literal "string" "literal_string" rfl (by decide)).reading
    rintro _ ⟨value, rfl, rfl⟩
    rfl
  | bool truth =>
    apply (takes_literal "bool" "literal_bool" rfl (by decide)).reading
    rintro _ ⟨value, rfl, rfl⟩
    rfl
  | group inner =>
    refine (takes_atom_as "group" (.head _) (by decide)
      (Takes.enclosed (ih inner wf) fun _ => clear_mark (by decide))).reading ?_
    rintro _ ⟨value, rfl, read⟩
    rw [Atom.ofTree, read]
    rfl
  | list items =>
    refine (takes_atom_as "list" (.tail _ (.head _)) (by decide)
      (takes_expressions ih wf (by decide) (by decide))).reading ?_
    rintro _ ⟨_, rfl, trees, rfl, read⟩
    rw [Atom.ofTree, read]
    rfl

omit ih in
/-- A term is an atom with suffixes, both as it is written and as it is read. -/
theorem term_parts {term : Expression} (h : term.IsTerm) (wf : term.WellFormed) :
    ∃ (head : Atom) (suffixes : List Suffix),
      term.signs = [head.signs, suffixes.flatMap Suffix.signs].flatten ∧ head.WellFormed ∧
      (∀ suffix ∈ suffixes, suffix.WellFormed) ∧
      ∀ tree trees, Atom.ofTree tree = .ok head →
        List.Forall₂ (fun suffix tree => Suffix.ofTree tree = .ok suffix) suffixes trees →
        Expression.ofTerm (.seq [tree, .seq trees]) = .ok term := by
  cases term with
  | binary => exact h.elim
  | unary => exact h.elim
  | atom value =>
    refine ⟨value, [], by simp [Expression.signs], wf, by simp, ?_⟩
    intro tree trees read all
    rw [List.forall₂_nil_left_iff.mp all, Expression.ofTerm, read]
    rfl
  | applied head suffixes =>
    obtain ⟨some, head_wf, suffixes_wf⟩ := wf
    refine ⟨head, suffixes, ?_, head_wf, Suffix.allWellFormed_iff.mp suffixes_wf, ?_⟩
    · simp [Expression.signs, Suffix.signsOfEach_eq, List.flatMap_def]
    · intro tree trees read all
      have read_all := mapM_of_forall₂ all
      cases all with
      | nil => exact absurd rfl some
      | cons _ _ =>
        rw [Expression.ofTerm, read, ok_bind]
        dsimp only
        rw [Suffix.ofTrees_eq, read_all]
        rfl

omit ih in
theorem suffix_ne_nil (suffix : Suffix) : suffix.signs ≠ [] := by
  cases suffix <;> simp [Suffix.signs, Sign.between]

theorem takes_term {term : Expression} (h : term.IsTerm) (wf : term.WellFormed) :
    (languageParser tokens file).Takes n (rule "term") term.signs (Clear suffixStarts)
      (fun tree => Expression.ofTerm tree = .ok term) := by
  obtain ⟨head, suffixes, written, head_wf, suffixes_wf, read⟩ := term_parts h wf
  have each : ∀ suffix ∈ suffixes, suffix.signs ≠ [] ∧
      (languageParser tokens file).Takes n (rule "suffix") suffix.signs (fun _ => True)
        (fun tree => Suffix.ofTree tree = .ok suffix) :=
    fun suffix member => ⟨suffix_ne_nil suffix, takes_suffix ih (suffixes_wf suffix member)⟩
  have many := Takes.many each (fun _ _ => chained_always suffixes) leaves_suffix
  rw [written]
  apply Takes.named rfl
  apply Takes.reading (TakesInTurn.sequence (.cons (takes_atom ih head_wf) (fun _ _ => trivial)
    (.last many)))
  rintro _ ⟨_, rfl, tree, _, rfl, here, _, rfl, trees, rfl, all⟩
  exact read tree trees here all

end

end PseudoLang
