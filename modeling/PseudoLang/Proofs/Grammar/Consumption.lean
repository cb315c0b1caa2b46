import Mathlib
import PseudoLang.Proofs.Grammar.Halting

/-!
What a match consumes. It goes forward and not past the tokens, and the leaves of its tree are texts
of the tokens that it has moved over, each of them at most once and in their order. Only the rules
with delimiters leave tokens out: where none of them is reached, the leaves are all the texts
(`evaluate_consumes`).
-/

namespace PseudoLang

/-! ## Leaves -/

namespace SyntaxTree

mutual

/-- The texts of tokens and operators, in source order. -/
def leaves : SyntaxTree → List String
  | token _ value => [value]
  | seq items => leavesOfAll items
  | tagged _ value => leaves value
  | pair left right => leavesOfPart left ++ leavesOfPart right
  | binary operator left right => leaves left ++ operator :: leaves right
  | unary operator operand => operator :: leaves operand

def leavesOfAll : List SyntaxTree → List String
  | [] => []
  | tree :: trees => leaves tree ++ leavesOfAll trees

def leavesOfPart : Option SyntaxTree → List String
  | none => []
  | some tree => leaves tree

end

theorem leavesOfAll_eq_flatMap (trees : List SyntaxTree) :
    leavesOfAll trees = trees.flatMap leaves := by
  induction trees with
  | nil => rfl
  | cons tree trees ih => rw [leavesOfAll, ih, List.flatMap_cons]

@[simp] theorem leaves_seq (items : List SyntaxTree) : (seq items).leaves = items.flatMap leaves :=
  leavesOfAll_eq_flatMap items

end SyntaxTree

namespace Grammar

open Precedence (Element OperatorTree)
open SyntaxTree (leavesOfPart)

namespace Filter

/-- The leaves of an element of a flat sequence. -/
def elementLeaves : Element SyntaxTree → List String
  | .term value => value.leaves
  | .operator name => [name]

theorem elementLeaves_elementOf (item : SyntaxTree) :
    elementLeaves (elementOf item) = item.leaves := by
  unfold elementOf
  split <;> simp [elementLeaves, SyntaxTree.leaves]

theorem leaves_join (operators : OperatorTree SyntaxTree) :
    (join operators).leaves = operators.walk.flatMap elementLeaves := by
  induction operators with
  | term value => simp [join, OperatorTree.walk, elementLeaves]
  | binary operator left right hl hr =>
    simp [join, OperatorTree.walk, SyntaxTree.leaves, elementLeaves, hl, hr]
  | unary operator operand ih =>
    simp [join, OperatorTree.walk, SyntaxTree.leaves, elementLeaves, ih]

/-- Joining a sequence by precedence keeps all its leaves, whatever its items are. -/
theorem leaves_precedence {value tree : SyntaxTree} (h : precedence value = .ok (some tree)) :
    tree.leaves = value.leaves := by
  obtain ⟨-, items, operators, rfl, rfl, walk, -⟩ := precedence_eq_ok h
  rw [leaves_join, walk, List.flatMap_map, SyntaxTree.leaves_seq]
  exact List.flatMap_congr fun item _ => elementLeaves_elementOf item

end Filter

/-! ## Texts that are kept -/

/-- The leaves are texts from the list, in its order. They are all of them, unless some may be left
out. -/
structure Keeps (omits : Prop) (leaves texts : List String) : Prop where
  sublist : leaves.Sublist texts
  all : ¬ omits → leaves = texts

namespace Keeps

variable {omits : Prop} {leaves texts more others : List String}

theorem refl (texts : List String) : Keeps omits texts texts := ⟨.refl texts, fun _ => rfl⟩

/-- Texts that are left out altogether. -/
theorem none (h : omits) (texts : List String) : Keeps omits [] texts :=
  ⟨List.nil_sublist texts, fun all => absurd h all⟩

theorem append (h : Keeps omits leaves texts) (hm : Keeps omits more others) :
    Keeps omits (leaves ++ more) (texts ++ others) where
  sublist := h.sublist.append hm.sublist
  all keeps := by rw [h.all keeps, hm.all keeps]

/-- Between texts that are left out. -/
theorem between (h : Keeps omits leaves texts) (ho : omits) (before after : List String) :
    Keeps omits leaves (before ++ texts ++ after) := by
  have whole := ((none ho before).append h).append (none ho after)
  rwa [List.nil_append, List.append_nil] at whole

end Keeps

/-- A rule whose trees hold all that it matches. -/
def Rule.keepsAll : Rule → Bool
  | .delimited .. | .pair .. => false
  | _ => true

section

variable {omits : Prop} {within : Rule → Prop} {inner : Derivation} {terminals : List Terminal}
  {trees : List SyntaxTree} {tree : SyntaxTree}

/-- Derivations by the rules of a class whose trees keep the texts. -/
def DerivesKeeping (omits : Prop) (within : Rule → Prop) (inner : Derivation) : Prop :=
  ∀ rule terminals tree, within rule → inner rule terminals tree →
    Keeps omits tree.leaves (terminals.map Prod.snd)

/-- Several trees keep the texts. -/
def KeepsAmong (omits : Prop) (trees : List SyntaxTree) (terminals : List Terminal) : Prop :=
  Keeps omits (trees.flatMap SyntaxTree.leaves) (terminals.map Prod.snd)

namespace KeepsAmong

theorem nil : KeepsAmong omits [] [] := Keeps.refl []

theorem append {more : List SyntaxTree} {rest : List Terminal} (h : KeepsAmong omits trees terminals)
    (hm : KeepsAmong omits more rest) : KeepsAmong omits (trees ++ more) (terminals ++ rest) := by
  unfold KeepsAmong
  rw [List.flatMap_append, List.map_append]
  exact Keeps.append h hm

theorem one (h : Keeps omits tree.leaves (terminals.map Prod.snd)) :
    KeepsAmong omits [tree] terminals := by
  unfold KeepsAmong
  rwa [List.flatMap_singleton]

theorem cons {rest : List Terminal} (h : Keeps omits tree.leaves (terminals.map Prod.snd))
    (hm : KeepsAmong omits trees rest) : KeepsAmong omits (tree :: trees) (terminals ++ rest) :=
  (one h).append hm

theorem seq (h : KeepsAmong omits trees terminals) :
    Keeps omits (SyntaxTree.seq trees).leaves (terminals.map Prod.snd) := by
  rw [SyntaxTree.leaves_seq]
  exact h

end KeepsAmong

theorem InTurn.keepsAmong (hi : DerivesKeeping omits within inner) {rules : List Rule}
    (hw : ∀ rule ∈ rules, within rule) (h : InTurn inner rules terminals trees) :
    KeepsAmong omits trees terminals := by
  induction h with
  | nil => exact .nil
  | cons derived _ ih =>
    obtain ⟨here, rest⟩ := List.forall_mem_cons.mp hw
    exact .cons (hi _ _ _ here derived) (ih rest)

theorem Repeated.keepsAmong {round : List Terminal → List SyntaxTree → Prop}
    (hr : ∀ terminals trees, round terminals trees → KeepsAmong omits trees terminals)
    (h : Repeated round terminals trees) : KeepsAmong omits trees terminals := by
  induction h with
  | nil => exact .nil
  | cons one _ ih => exact (hr _ _ one).append ih

theorem Single.keepsAmong (hi : DerivesKeeping omits within inner) {rule : Rule}
    (hw : within rule) (h : Single inner rule terminals trees) :
    KeepsAmong omits trees terminals := by
  obtain ⟨tree, rfl, derived⟩ := h
  exact .one (hi _ _ _ hw derived)

/-- The first rule of a round is either kept, or some texts may be left out. -/
theorem Following.keepsAmong (hi : DerivesKeeping omits within inner) {keep : Bool}
    (ho : keep = true ∨ omits) {before rule : Rule} (hb : within before) (hw : within rule)
    (h : Following inner keep before rule terminals trees) : KeepsAmong omits trees terminals := by
  obtain ⟨first, rest, left, right, rfl, rfl, derived, last⟩ := h
  have tail : KeepsAmong omits [right] rest := .one (hi _ _ _ hw last)
  cases keep with
  | true => exact .cons (hi _ _ _ hb derived) tail
  | false =>
    have omitted : omits := ho.resolve_left Bool.false_ne_true
    have dropped : KeepsAmong omits [] first := Keeps.none omitted _
    exact dropped.append tail

theorem Content.keeps (hi : DerivesKeeping omits within inner) (ho : omits)
    {separator : Option Rule} {element : Rule} (hs : ∀ rule ∈ separator, within rule)
    (he : within element) (h : Content inner separator element terminals tree) :
    Keeps omits tree.leaves (terminals.map Prod.snd) := by
  cases separator with
  | none => exact hi _ _ _ he h
  | some separator =>
    obtain ⟨rfl, rfl⟩ | ⟨first, rest, value, more, rfl, rfl, derived, rounds⟩ := h
    · exact KeepsAmong.nil.seq
    · have tail : KeepsAmong omits more rest := rounds.keepsAmong fun _ _ round =>
        round.keepsAmong hi (.inr ho) (hs separator rfl) he
      exact (KeepsAmong.cons (hi _ _ _ he derived) tail).seq

/-- A rule keeps the texts if the rules inside it do, and only delimiters are left out. -/
theorem keeps_of_derivesRule {table : Table} (closed : Closed table [] within)
    (ho : ∀ rule, within rule → rule.keepsAll = false → omits)
    (hi : DerivesKeeping omits within inner) :
    DerivesKeeping omits within (DerivesRule table inner) := by
  intro rule terminals tree hw h
  have parts : ∀ part ∈ rule.parts, within part := fun part => closed.part hw
  cases rule with
  | reference name =>
    obtain ⟨chain, rule, resolved, derived⟩ := h
    exact hi _ _ _ (closed.reference hw resolved) derived
  | token kind error =>
    obtain ⟨value, rfl, rfl⟩ := h
    exact .refl [value]
  | filter name rule =>
    obtain ⟨filter, value, known, filtered, derived⟩ := h
    rw [Filter.named?_eq_some known] at filtered
    rw [Filter.leaves_precedence filtered]
    exact hi _ _ _ (List.forall_mem_singleton.mp parts) derived
  | optional rule =>
    obtain ⟨rfl, rfl⟩ | ⟨value, rfl, derived⟩ := h
    · exact KeepsAmong.nil.seq
    · exact (KeepsAmong.one (hi _ _ _ (List.forall_mem_singleton.mp parts) derived)).seq
  | many rule =>
    obtain ⟨trees, rfl, rounds⟩ := h
    have each : KeepsAmong omits trees terminals := rounds.keepsAmong fun _ _ round =>
      round.keepsAmong hi (List.forall_mem_singleton.mp parts)
    exact each.seq
  | cycle rules =>
    obtain ⟨trees, rfl, rounds⟩ := h
    have each : KeepsAmong omits trees terminals := rounds.keepsAmong fun _ _ round =>
      round.keepsAmong hi parts
    exact each.seq
  | split primary secondary error =>
    obtain ⟨hp, hs⟩ : within primary ∧ within secondary := by simpa [Rule.parts] using parts
    obtain ⟨first, rest, value, more, rfl, rfl, derived, rounds⟩ := h
    have tail : KeepsAmong omits more rest := rounds.keepsAmong fun _ _ round =>
      round.keepsAmong hi (.inl rfl) hs hp
    exact (KeepsAmong.cons (hi _ _ _ hp derived) tail).seq
  | sequence rules error =>
    obtain ⟨trees, rfl, turns⟩ := h
    exact (turns.keepsAmong hi parts).seq
  | delimited left right separator element error =>
    have omitted : omits := ho _ hw rfl
    obtain ⟨-, -, he, hs⟩ : within left ∧ within right ∧ within element ∧
        ∀ rule ∈ separator, within rule := by simpa [Rule.parts] using parts
    obtain ⟨opening, content, closing, before, after, rfl, -, inside, -⟩ := h
    have middle := inside.keeps hi omitted hs he
    rw [List.map_append, List.map_append]
    exact middle.between omitted _ _
  | choice alternatives error =>
    obtain ⟨tag, rule, value, member, rfl, derived⟩ := h
    rw [SyntaxTree.leaves]
    exact hi _ _ _ (parts rule (List.mem_map.mpr ⟨_, member, rfl⟩)) derived
  | required rule error => exact hi _ _ _ (List.forall_mem_singleton.mp parts) h
  | pair left separator right =>
    have omitted : omits := ho _ hw rfl
    obtain ⟨hl, -, hr⟩ : within left ∧ within separator ∧ within right := by
      simpa [Rule.parts] using parts
    obtain ⟨value, rfl, derived⟩ | ⟨value, rfl, derived⟩ |
      ⟨first, middle, last, before, _, after, rfl, rfl, derived, -, ended⟩ := h
    · rw [SyntaxTree.leaves, leavesOfPart, leavesOfPart, List.nil_append]
      exact hi _ _ _ hr derived
    · rw [SyntaxTree.leaves, leavesOfPart, leavesOfPart, List.append_nil]
      exact hi _ _ _ hl derived
    · have front := (hi _ _ _ hl derived).append (Keeps.none omitted (middle.map Prod.snd))
      rw [List.append_nil] at front
      rw [List.map_append, List.map_append]
      exact front.append (hi _ _ _ hr ended)

theorem keeps_of_derives {table : Table} (closed : Closed table [] within)
    (ho : ∀ rule, within rule → rule.keepsAll = false → omits) (room : Nat) :
    DerivesKeeping omits within (Derives table room) := by
  induction room with
  | zero => exact fun _ _ _ _ h => h.elim
  | succ room ih => exact keeps_of_derivesRule closed ho ih

end

/-! ## Matches -/

namespace Parser

open Parse

variable {p : Parser} {rule : Rule} {cursor stop : Nat} {tree : SyntaxTree} {context : Context}

theorem between_map_snd (p : Parser) (first last : Nat) :
    (p.between first last).map Prod.snd =
      (p.tokens.extract first last).toList.map Token.value := by
  rw [between, List.map_map]
  rfl

/-- A match ends between its cursor and the end of the tokens. The leaves of its tree are texts of
the tokens between the two cursors, in their order and each for one token, and they are all of them
if the rule reaches no rule with delimiters. -/
theorem evaluate_consumes
    (found : ((p.evaluate cursor rule).runFrom context).1 = .ok (some (stop, tree))) :
    cursor ≤ stop ∧ stop ≤ max cursor p.tokens.size ∧
    tree.leaves.Sublist ((p.tokens.extract cursor stop).toList.map Token.value) ∧
    ((∀ inner, p.table.Reaches rule inner → inner.keepsAll = true) →
      tree.leaves = (p.tokens.extract cursor stop).toList.map Token.value) := by
  have derived := derives_of_evaluateWithin p (maxDepth - context.depth) cursor rule context
  rw [← runFrom_evaluate, found] at derived
  obtain ⟨terminals, spans, derived⟩ := derived stop tree rfl
  have keeps : Keeps (∃ inner, p.table.Reaches rule inner ∧ inner.keepsAll = false) tree.leaves
      (terminals.map Prod.snd) :=
    keeps_of_derives (closed_reaches rule) (fun inner reached omits => ⟨inner, reached, omits⟩) _
      _ _ _ .self derived
  rw [spans.terminals_eq, between_map_snd] at keeps
  refine ⟨spans.forward, spans.inside, keeps.sublist, fun all => keeps.all ?_⟩
  rintro ⟨inner, reached, omits⟩
  rw [all inner reached] at omits
  cases omits

/-- Sums of names and of sums in brackets, which are not delimiters here. -/
def sums : Table :=
  [("sum", .filter "precedence" (.many (.choice [("term", .reference "part"),
      ("op", .token "op" none)] none))),
    ("part", .choice [("name", .token "name" none), ("sum", .sequence [.token "[" none,
      .reference "sum", .token "]" none] none)] none)]

/-- A parser of sums over a sum after another token. -/
def sumParser : Parser where
  tokens := #[(.keyword, "set"), (.name, "a"), (.operator, "*"), (.symbol, "["), (.name, "b"),
    (.operator, "-"), (.operator, "-"), (.name, "c"), (.symbol, "]"), (.eof, "")].map
      fun (kind, value) => ⟨kind, value, ⟨0, ""⟩, ⟨0, ""⟩⟩
  file := ""
  table := sums

/-- A name as a term of a sum. -/
def nameTerm (name : String) : SyntaxTree := .tagged "term" (.tagged "name" (.token "name" name))

/-- A product of a name and a difference in brackets. -/
def product : SyntaxTree :=
  .binary "*" (nameTerm "a") (.tagged "term" (.tagged "sum" (.seq [.token "[" "[",
    .binary "-" (nameTerm "b") (.unary "-" (nameTerm "c")), .token "]" "]"])))

theorem evaluate_consumes_product :
    ((sumParser.evaluate 1 (.reference "sum")).runFrom .initial).1 = .ok (some (9, product)) ∧
    (∀ inner, sums.Reaches (.reference "sum") inner → inner.keepsAll = true) ∧
    9 ≤ max 1 sumParser.tokens.size ∧
    product.leaves = (sumParser.tokens.extract 1 9).toList.map Token.value := by
  have found : ((sumParser.evaluate 1 (.reference "sum")).runFrom .initial).1 =
      .ok (some (9, product)) := by
    cbv
  have checked : ∀ entry ∈ sums, entry.2.everywhere Rule.keepsAll = true := by decide
  have keeps : ∀ inner, sums.Reaches (.reference "sum") inner → inner.keepsAll = true := by
    intro inner reached
    have here := (closed_everywhere checked).reaches (by decide) reached
    exact (Rule.everywhere_iff.mp here).1
  obtain ⟨-, inside, -, all⟩ := evaluate_consumes found
  exact ⟨found, keeps, inside, all keeps⟩

end Parser

end Grammar

end PseudoLang
