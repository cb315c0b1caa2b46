import Mathlib.Data.List.Forall2
import PseudoLang.Proofs.Grammar.Shape

/-!
The trees of a rule together with the tokens that they were derived from. As for the form of a tree,
each kind of rule says which tokens belong to which tree inside; tokens that are kept in no tree are
those of a delimiter or a separator.
-/

namespace PseudoLang.Grammar

/-- A tree that the rule derives from these tokens, with fewer than `n` rules inside each other. All
of the tokens have the property `P`. -/
def Yields (table : Table) (P : Terminal → Prop) (n : Nat) (rule : Rule)
    (terminals : List Terminal) (tree : SyntaxTree) : Prop :=
  ∃ m < n, (∀ terminal ∈ terminals, P terminal) ∧ Derives table m rule terminals tree

/-- Tokens and a tree for each of the rules. -/
def YieldsInTurn (table : Table) (P : Terminal → Prop) (n : Nat) :
    List Rule → List Terminal → List SyntaxTree → Prop
  | [], terminals, trees => terminals = [] ∧ trees = []
  | rule :: rules, terminals, trees =>
    ∃ first rest tree more, terminals = first ++ rest ∧ trees = tree :: more ∧
      Yields table P n rule first tree ∧ YieldsInTurn table P n rules rest more

variable {table : Table} {P : Terminal → Prop} {n : Nat} {terminals : List Terminal}
  {tree : SyntaxTree}

/-- A separator, and the tokens and the tree of an item after it. -/
def YieldsAfter (table : Table) (P : Terminal → Prop) (n : Nat) (separator rule : Rule)
    (terminals : List Terminal) (tree : SyntaxTree) : Prop :=
  ∃ before here kept, terminals = before ++ here ∧ Yields table P n separator before kept ∧
    Yields table P n rule here tree

theorem Yields.shaped {rule : Rule} (h : Yields table P n rule terminals tree) :
    Shaped table P n rule tree := by
  obtain ⟨m, less, all, derived⟩ := h
  exact ⟨m, terminals, less, all, derived⟩

theorem Yields.all {rule : Rule} (h : Yields table P n rule terminals tree) :
    ∀ terminal ∈ terminals, P terminal := by
  obtain ⟨_, _, all, -⟩ := h
  exact all

theorem not_yields_zero {rule : Rule} : ¬ Yields table P 0 rule terminals tree :=
  fun h => not_shaped_zero h.shaped

/-- The derivation of a tree comes from derivations that are less deep. -/
theorem Yields.inner {rule : Rule} (h : Yields table P (n + 1) rule terminals tree) :
    ∃ m < n, (∀ terminal ∈ terminals, P terminal) ∧
      DerivesRule table (Derives table m) rule terminals tree := by
  obtain ⟨m, less, all, derived⟩ := h
  cases m with
  | zero => exact derived.elim
  | succ m => exact ⟨m, by omega, all, derived⟩

theorem Yields.rule {rule : Rule} (h : Yields table P n rule terminals tree) :
    ∃ m < n, (∀ terminal ∈ terminals, P terminal) ∧
      DerivesRule table (Derives table m) rule terminals tree := by
  cases n with
  | zero => exact absurd h not_yields_zero
  | succ n =>
    obtain ⟨m, less, rest⟩ := h.inner
    exact ⟨m, by omega, rest⟩

theorem Yields.reference {name : String} {chain : List String} {rule : Rule}
    (resolved : table.resolve name = .ok (chain, rule))
    (h : Yields table P (n + 1) (.reference name) terminals tree) :
    Yields table P n rule terminals tree := by
  obtain ⟨m, less, all, chain', rule', resolved', derived⟩ := h.inner
  rw [resolved] at resolved'
  cases resolved'
  exact ⟨m, less, all, derived⟩

/-- The body of a named rule, where nothing is to be gained from its being less deep. -/
theorem Yields.body {name : String} {chain : List String} {rule : Rule}
    (resolved : table.resolve name = .ok (chain, rule))
    (h : Yields table P n (.reference name) terminals tree) :
    Yields table P n rule terminals tree := by
  cases n with
  | zero => exact absurd h not_yields_zero
  | succ n =>
    obtain ⟨m, less, rest⟩ := h.reference resolved
    exact ⟨m, by omega, rest⟩

theorem Yields.token {kind : String} {error : Option String}
    (h : Yields table P n (.token kind error) terminals tree) :
    ∃ value, terminals = [(kind, value)] ∧ tree = .token kind value ∧ P (kind, value) := by
  obtain ⟨m, -, all, value, rfl, rfl⟩ := h.rule
  exact ⟨value, rfl, rfl, all _ List.mem_cons_self⟩

theorem Yields.filter {name : String} {rule : Rule}
    (h : Yields table P n (.filter name rule) terminals tree) :
    ∃ filter value, Filter.named? name = some filter ∧ filter value = .ok (some tree) ∧
      Yields table P n rule terminals value := by
  obtain ⟨m, less, all, filter, value, known, filtered, derived⟩ := h.rule
  exact ⟨filter, value, known, filtered, m, less, all, derived⟩

theorem Yields.optional {rule : Rule} (h : Yields table P n (.optional rule) terminals tree) :
    (terminals = [] ∧ tree = .seq []) ∨
    ∃ value, tree = .seq [value] ∧ Yields table P n rule terminals value := by
  obtain ⟨m, less, all, none | ⟨value, rfl, derived⟩⟩ := h.rule
  · exact .inl none
  · exact .inr ⟨value, rfl, m, less, all, derived⟩

theorem Yields.required {rule : Rule} {error : String}
    (h : Yields table P n (.required rule error) terminals tree) :
    Yields table P n rule terminals tree := by
  obtain ⟨m, less, all, derived⟩ := h.rule
  exact ⟨m, less, all, derived⟩

theorem Yields.choice {alternatives : List (String × Rule)} {error : Option String}
    (h : Yields table P n (.choice alternatives error) terminals tree) :
    ∃ tag rule value, (tag, rule) ∈ alternatives ∧ tree = .tagged tag value ∧
      Yields table P n rule terminals value := by
  obtain ⟨m, less, all, tag, rule, value, member, rfl, derived⟩ := h.rule
  exact ⟨tag, rule, value, member, rfl, m, less, all, derived⟩

theorem yields_of_inTurn {m : Nat} (less : m < n) {rules : List Rule} {trees : List SyntaxTree}
    (all : ∀ terminal ∈ terminals, P terminal)
    (h : InTurn (Derives table m) rules terminals trees) :
    YieldsInTurn table P n rules terminals trees := by
  induction h with
  | nil => exact ⟨rfl, rfl⟩
  | cons derived _ ih =>
    obtain ⟨first, rest⟩ := List.forall_mem_append.mp all
    exact ⟨_, _, _, _, rfl, rfl, ⟨m, less, first, derived⟩, ih rest⟩

theorem Yields.sequence {rules : List Rule} {error : Option String}
    (h : Yields table P n (.sequence rules error) terminals tree) :
    ∃ trees, tree = .seq trees ∧ YieldsInTurn table P n rules terminals trees := by
  obtain ⟨m, less, all, trees, rfl, turns⟩ := h.rule
  exact ⟨trees, rfl, yields_of_inTurn less all turns⟩

/-- Every tree of a repetition has tokens of its own. -/
theorem Yields.many {rule : Rule} (h : Yields table P n (.many rule) terminals tree) :
    ∃ parts trees, terminals = parts.flatten ∧ tree = .seq trees ∧
      List.Forall₂ (Yields table P n rule) parts trees := by
  obtain ⟨m, less, all, trees, rfl, rounds⟩ := h.rule
  clear h
  induction rounds with
  | nil => exact ⟨[], [], rfl, rfl, .nil⟩
  | cons one _ ih =>
    obtain ⟨first, rest⟩ := List.forall_mem_append.mp all
    obtain ⟨tree, rfl, derived⟩ := one
    obtain ⟨parts, trees, rfl, same, yields⟩ := ih rest
    cases same
    exact ⟨_ :: parts, tree :: _, rfl, rfl, .cons ⟨m, less, first, derived⟩ yields⟩

/-- The parts of a pair, with the tokens of each. -/
theorem Yields.pair {left separator right : Rule}
    (h : Yields table P n (.pair left separator right) terminals tree) :
    (∃ value, tree = .pair none (some value) ∧ Yields table P n right terminals value) ∨
    (∃ value, tree = .pair (some value) none ∧ Yields table P n left terminals value) ∨
    ∃ first middle last before between after, terminals = first ++ middle ++ last ∧
      tree = .pair (some before) (some after) ∧ Yields table P n left first before ∧
      Yields table P n separator middle between ∧ Yields table P n right last after := by
  obtain ⟨m, less, all, ⟨value, rfl, derived⟩ | ⟨value, rfl, derived⟩ |
    ⟨first, middle, last, before, between, after, rfl, rfl, hb, hm, ha⟩⟩ := h.rule
  · exact .inl ⟨value, rfl, m, less, all, derived⟩
  · exact .inr (.inl ⟨value, rfl, m, less, all, derived⟩)
  · exact .inr (.inr ⟨first, middle, last, before, between, after, rfl, rfl,
      ⟨m, less, fun t ht => all t (by simp [ht]), hb⟩,
      ⟨m, less, fun t ht => all t (by simp [ht]), hm⟩,
      m, less, fun t ht => all t (by simp [ht]), ha⟩)

theorem yields_of_following {m : Nat} (less : m < n) {separator rule : Rule}
    {trees : List SyntaxTree} (all : ∀ terminal ∈ terminals, P terminal)
    (h : Repeated (Following (Derives table m) false separator rule) terminals trees) :
    ∃ rounds, terminals = rounds.flatten ∧
      List.Forall₂ (YieldsAfter table P n separator rule) rounds trees := by
  induction h with
  | nil => exact ⟨[], rfl, .nil⟩
  | cons one _ ih =>
    obtain ⟨first, rest⟩ := List.forall_mem_append.mp all
    obtain ⟨before, here, kept, tree, rfl, rfl, hs, hi⟩ := one
    obtain ⟨hl, hr⟩ := List.forall_mem_append.mp first
    obtain ⟨rounds, rfl, yields⟩ := ih rest
    exact ⟨_ :: rounds, rfl,
      .cons ⟨before, here, kept, rfl, ⟨m, less, hl, hs⟩, m, less, hr, hi⟩ yields⟩

/-- The items of a list of trees in which every item comes after a separator. -/
inductive Interleaved : List SyntaxTree → List SyntaxTree → Prop
  | nil : Interleaved [] []
  | cons {kept item : SyntaxTree} {trees items : List SyntaxTree} :
    Interleaved trees items → Interleaved (kept :: item :: trees) (item :: items)

/-- Rounds of two rules, of which the first is a separator. -/
theorem Yields.cycle {separator rule : Rule}
    (h : Yields table P n (.cycle [separator, rule]) terminals tree) :
    ∃ rounds trees items, terminals = rounds.flatten ∧ tree = .seq trees ∧
      Interleaved trees items ∧
      List.Forall₂ (YieldsAfter table P n separator rule) rounds items := by
  obtain ⟨m, less, all, trees, rfl, rounds⟩ := h.rule
  clear h
  induction rounds with
  | nil => exact ⟨[], [], [], rfl, rfl, .nil, .nil⟩
  | cons one _ ih =>
    obtain ⟨first, rest⟩ := List.forall_mem_append.mp all
    obtain ⟨before, _, kept, _, rfl, rfl, separates, here, _, item, _, rfl, rfl, derived, rfl,
      rfl⟩ := yields_of_inTurn less first one
    obtain ⟨rounds, trees, items, rfl, same, interleaved, yields⟩ := ih rest
    cases same
    exact ⟨_ :: rounds, _, item :: items, rfl, rfl, .cons interleaved,
      .cons ⟨before, here, kept, by simp, separates, derived⟩ yields⟩

/-- Rounds of two rules without a tree are no rounds. -/
theorem Yields.cycle_nil {separator rule : Rule}
    (h : Yields table P n (.cycle [separator, rule]) terminals (.seq [])) : terminals = [] := by
  obtain ⟨_, trees, _, rfl, same, interleaved, yields⟩ := h.cycle
  cases same
  cases interleaved
  cases yields
  rfl

theorem interleaved_of_following {m : Nat} (less : m < n) {separator rule : Rule}
    {trees : List SyntaxTree} (all : ∀ terminal ∈ terminals, P terminal)
    (h : Repeated (Following (Derives table m) true separator rule) terminals trees) :
    ∃ rounds items, terminals = rounds.flatten ∧ Interleaved trees items ∧
      List.Forall₂ (YieldsAfter table P n separator rule) rounds items := by
  induction h with
  | nil => exact ⟨[], [], rfl, .nil, .nil⟩
  | cons one _ ih =>
    obtain ⟨first, rest⟩ := List.forall_mem_append.mp all
    obtain ⟨before, here, kept, item, rfl, rfl, hs, hi⟩ := one
    obtain ⟨hl, hr⟩ := List.forall_mem_append.mp first
    obtain ⟨rounds, items, rfl, interleaved, yields⟩ := ih rest
    exact ⟨_ :: rounds, item :: items, rfl, .cons interleaved,
      .cons ⟨before, here, kept, rfl, ⟨m, less, hl, hs⟩, m, less, hr, hi⟩ yields⟩

/-- A series, with the tokens of every item. -/
theorem Yields.split {primary secondary : Rule} {error : Option String}
    (h : Yields table P n (.split primary secondary error) terminals tree) :
    ∃ first rounds value trees items, terminals = first ++ rounds.flatten ∧
      tree = .seq (value :: trees) ∧ Yields table P n primary first value ∧
      Interleaved trees items ∧
      List.Forall₂ (YieldsAfter table P n secondary primary) rounds items := by
  obtain ⟨m, less, all, first, rest, value, more, rfl, rfl, derived, kept⟩ := h.rule
  obtain ⟨hf, hr⟩ := List.forall_mem_append.mp all
  obtain ⟨rounds, items, rfl, interleaved, yields⟩ := interleaved_of_following less hr kept
  exact ⟨first, rounds, value, more, items, rfl, rfl, ⟨m, less, hf, derived⟩, interleaved, yields⟩

/-- A delimited rule has its tokens between those of the delimiters. -/
theorem Yields.enclosed {left right element : Rule} {error : Option String}
    (h : Yields table P n (.delimited left right none element error) terminals tree) :
    ∃ opening inside closing before after, terminals = opening ++ inside ++ closing ∧
      Yields table P n left opening before ∧ Yields table P n element inside tree ∧
      Yields table P n right closing after := by
  obtain ⟨m, less, all, opening, inside, closing, before, after, rfl, opens, derived, closes⟩ :=
    h.rule
  exact ⟨opening, inside, closing, before, after, rfl,
    ⟨m, less, fun t ht => all t (by simp [ht]), opens⟩,
    ⟨m, less, fun t ht => all t (by simp [ht]), derived⟩,
    m, less, fun t ht => all t (by simp [ht]), closes⟩

theorem Yields.listed {left right separator element : Rule} {error : Option String}
    (h : Yields table P n (.delimited left right (some separator) element error) terminals tree) :
    ∃ opening inside closing before after trees,
      terminals = opening ++ inside ++ closing ∧ tree = .seq trees ∧
      Yields table P n left opening before ∧ Yields table P n right closing after ∧
      ((inside = [] ∧ trees = []) ∨ ∃ first rounds value more, inside = first ++ rounds.flatten ∧
        trees = value :: more ∧ Yields table P n element first value ∧
        List.Forall₂ (YieldsAfter table P n separator element) rounds more) := by
  obtain ⟨m, less, all, opening, inside, closing, before, after, rfl, opens, content, closes⟩ :=
    h.rule
  have within : ∀ terminal ∈ inside, P terminal := fun t ht => all t (by simp [ht])
  have opens : Yields table P n left opening before :=
    ⟨m, less, fun t ht => all t (by simp [ht]), opens⟩
  have closes : Yields table P n right closing after :=
    ⟨m, less, fun t ht => all t (by simp [ht]), closes⟩
  obtain ⟨rfl, rfl⟩ | ⟨first, rest, value, more, rfl, rfl, derived, rounds⟩ := content
  · exact ⟨opening, [], closing, before, after, [], rfl, rfl, opens, closes, .inl ⟨rfl, rfl⟩⟩
  · obtain ⟨hf, hr⟩ := List.forall_mem_append.mp within
    obtain ⟨parts, rfl, yields⟩ := yields_of_following less hr rounds
    exact ⟨opening, _, closing, before, after, value :: more, rfl, rfl, opens, closes,
      .inr ⟨first, parts, value, more, rfl, rfl, ⟨m, less, hf, derived⟩, yields⟩⟩

end PseudoLang.Grammar
