import PseudoLang.Proofs.Grammar.Derivation

/-!
The trees of a rule, without the tokens that they were derived from. Each kind of rule gives its
trees one form; `P` stands for what is known of every token. Named rules are what an induction goes
down by: the body of a rule has a smaller bound than its name.
-/

namespace PseudoLang.Grammar

/-- A tree that the rule derives, with fewer than `n` rules inside each other, from tokens that all
have the property `P`. -/
def Shaped (table : Table) (P : Terminal → Prop) (n : Nat) (rule : Rule) (tree : SyntaxTree) :
    Prop :=
  ∃ m terminals, m < n ∧ (∀ terminal ∈ terminals, P terminal) ∧
    Derives table m rule terminals tree

/-- One tree for each of the rules. -/
def ShapedInTurn (table : Table) (P : Terminal → Prop) (n : Nat) :
    List Rule → List SyntaxTree → Prop
  | [], trees => trees = []
  | rule :: rules, trees =>
    ∃ tree rest, trees = tree :: rest ∧ Shaped table P n rule tree ∧
      ShapedInTurn table P n rules rest

/-- Pairs of a separator and an item. -/
inductive Alternating (separator item : SyntaxTree → Prop) : List SyntaxTree → Prop
  | nil : Alternating separator item []
  | cons {first second : SyntaxTree} {rest : List SyntaxTree} :
      separator first → item second → Alternating separator item rest →
      Alternating separator item (first :: second :: rest)

variable {table : Table} {P : Terminal → Prop} {n : Nat} {tree : SyntaxTree}

theorem not_shaped_zero {rule : Rule} : ¬ Shaped table P 0 rule tree := by
  rintro ⟨m, _, h, -⟩
  exact absurd h (Nat.not_lt_zero m)

/-- The derivation of a tree comes from derivations that are less deep. -/
theorem Shaped.inner {rule : Rule} (h : Shaped table P (n + 1) rule tree) :
    ∃ m terminals, m < n ∧ (∀ terminal ∈ terminals, P terminal) ∧
      DerivesRule table (Derives table m) rule terminals tree := by
  obtain ⟨m, terminals, less, all, derived⟩ := h
  cases m with
  | zero => exact derived.elim
  | succ m => exact ⟨m, terminals, by omega, all, derived⟩

theorem Shaped.rule {rule : Rule} (h : Shaped table P n rule tree) :
    ∃ m terminals, m < n ∧ (∀ terminal ∈ terminals, P terminal) ∧
      DerivesRule table (Derives table m) rule terminals tree := by
  cases n with
  | zero => exact absurd h not_shaped_zero
  | succ n =>
    obtain ⟨m, terminals, less, rest⟩ := h.inner
    exact ⟨m, terminals, by omega, rest⟩

theorem Shaped.reference {name : String} {chain : List String} {rule : Rule}
    (resolved : table.resolve name = .ok (chain, rule))
    (h : Shaped table P (n + 1) (.reference name) tree) : Shaped table P n rule tree := by
  obtain ⟨m, terminals, less, all, chain', rule', resolved', derived⟩ := h.inner
  rw [resolved] at resolved'
  cases resolved'
  exact ⟨m, terminals, less, all, derived⟩

/-- The body of a named rule, where nothing is to be gained from its being less deep. -/
theorem Shaped.body {name : String} {chain : List String} {rule : Rule}
    (resolved : table.resolve name = .ok (chain, rule))
    (h : Shaped table P n (.reference name) tree) : Shaped table P n rule tree := by
  cases n with
  | zero => exact absurd h not_shaped_zero
  | succ n =>
    obtain ⟨m, terminals, less, rest⟩ := h.reference resolved
    exact ⟨m, terminals, by omega, rest⟩

theorem Shaped.token {kind : String} {error : Option String}
    (h : Shaped table P n (.token kind error) tree) :
    ∃ value, tree = .token kind value ∧ P (kind, value) := by
  obtain ⟨m, _, -, all, value, rfl, rfl⟩ := h.rule
  exact ⟨value, rfl, all _ List.mem_cons_self⟩

theorem Shaped.filter {name : String} {rule : Rule}
    (h : Shaped table P n (.filter name rule) tree) :
    ∃ filter value, Filter.named? name = some filter ∧ filter value = .ok (some tree) ∧
      Shaped table P n rule value := by
  obtain ⟨m, terminals, less, all, filter, value, known, filtered, derived⟩ := h.rule
  exact ⟨filter, value, known, filtered, m, terminals, less, all, derived⟩

theorem Shaped.optional {rule : Rule} (h : Shaped table P n (.optional rule) tree) :
    tree = .seq [] ∨ ∃ value, tree = .seq [value] ∧ Shaped table P n rule value := by
  obtain ⟨m, terminals, less, all, ⟨-, rfl⟩ | ⟨value, rfl, derived⟩⟩ := h.rule
  · exact .inl rfl
  · exact .inr ⟨value, rfl, m, terminals, less, all, derived⟩

theorem Shaped.required {rule : Rule} {error : String}
    (h : Shaped table P n (.required rule error) tree) : Shaped table P n rule tree := by
  obtain ⟨m, terminals, less, all, derived⟩ := h.rule
  exact ⟨m, terminals, less, all, derived⟩

theorem Shaped.choice {alternatives : List (String × Rule)} {error : Option String}
    (h : Shaped table P n (.choice alternatives error) tree) :
    ∃ tag rule value, (tag, rule) ∈ alternatives ∧ tree = .tagged tag value ∧
      Shaped table P n rule value := by
  obtain ⟨m, terminals, less, all, tag, rule, value, member, rfl, derived⟩ := h.rule
  exact ⟨tag, rule, value, member, rfl, m, terminals, less, all, derived⟩

theorem Shaped.pair {left separator right : Rule}
    (h : Shaped table P n (.pair left separator right) tree) :
    ∃ before after, tree = .pair before after ∧ (before = none → after ≠ none) ∧
      (∀ value ∈ before, Shaped table P n left value) ∧
      ∀ value ∈ after, Shaped table P n right value := by
  obtain ⟨m, terminals, less, all, ⟨value, rfl, derived⟩ | ⟨value, rfl, derived⟩ |
    ⟨first, middle, last, before, between, after, rfl, rfl, hb, -, ha⟩⟩ := h.rule
  · refine ⟨none, some value, rfl, by simp, by simp, ?_⟩
    rintro _ ⟨⟩
    exact ⟨m, terminals, less, all, derived⟩
  · refine ⟨some value, none, rfl, by simp, ?_, by simp⟩
    rintro _ ⟨⟩
    exact ⟨m, terminals, less, all, derived⟩
  · refine ⟨some before, some after, rfl, by simp, ?_, ?_⟩
    · rintro _ ⟨⟩
      exact ⟨m, first, less, fun t ht => all t (by simp [ht]), hb⟩
    · rintro _ ⟨⟩
      exact ⟨m, last, less, fun t ht => all t (by simp [ht]), ha⟩

theorem shaped_of_inTurn {m : Nat} (less : m < n) {rules : List Rule} {terminals : List Terminal}
    {trees : List SyntaxTree} (all : ∀ terminal ∈ terminals, P terminal)
    (h : InTurn (Derives table m) rules terminals trees) :
    ShapedInTurn table P n rules trees := by
  induction h with
  | nil => rfl
  | cons derived _ ih =>
    obtain ⟨first, rest⟩ := List.forall_mem_append.mp all
    exact ⟨_, _, rfl, ⟨m, _, less, first, derived⟩, ih rest⟩

theorem Shaped.sequence {rules : List Rule} {error : Option String}
    (h : Shaped table P n (.sequence rules error) tree) :
    ∃ trees, tree = .seq trees ∧ ShapedInTurn table P n rules trees := by
  obtain ⟨m, terminals, less, all, trees, rfl, turns⟩ := h.rule
  exact ⟨trees, rfl, shaped_of_inTurn less all turns⟩

theorem Shaped.many {rule : Rule} (h : Shaped table P n (.many rule) tree) :
    ∃ trees, tree = .seq trees ∧ ∀ tree ∈ trees, Shaped table P n rule tree := by
  obtain ⟨m, terminals, less, all, trees, rfl, rounds⟩ := h.rule
  refine ⟨trees, rfl, ?_⟩
  clear h
  induction rounds with
  | nil => simp
  | cons one _ ih =>
    obtain ⟨first, rest⟩ := List.forall_mem_append.mp all
    obtain ⟨tree, rfl, derived⟩ := one
    exact List.forall_mem_cons.mpr ⟨⟨m, _, less, first, derived⟩, ih rest⟩

theorem Shaped.cycle {separator rule : Rule}
    (h : Shaped table P n (.cycle [separator, rule]) tree) :
    ∃ trees, tree = .seq trees ∧
      Alternating (Shaped table P n separator) (Shaped table P n rule) trees := by
  obtain ⟨m, terminals, less, all, trees, rfl, rounds⟩ := h.rule
  refine ⟨trees, rfl, ?_⟩
  clear h
  induction rounds with
  | nil => exact .nil
  | cons one _ ih =>
    obtain ⟨first, rest⟩ := List.forall_mem_append.mp all
    obtain ⟨_, _, rfl, hs, _, _, rfl, hi, rfl⟩ := shaped_of_inTurn less first one
    exact .cons hs hi (ih rest)

/-- Rounds of a separator and an item. The separators are in the tree if they are kept. -/
theorem alternating_of_following {m : Nat} (less : m < n) {separator rule : Rule}
    {terminals : List Terminal} {trees : List SyntaxTree}
    (all : ∀ terminal ∈ terminals, P terminal)
    (h : Repeated (Following (Derives table m) true separator rule) terminals trees) :
    Alternating (Shaped table P n separator) (Shaped table P n rule) trees := by
  induction h with
  | nil => exact .nil
  | cons one _ ih =>
    obtain ⟨first, rest⟩ := List.forall_mem_append.mp all
    obtain ⟨left, right, _, _, rfl, rfl, hs, hi⟩ := one
    obtain ⟨hl, hr⟩ := List.forall_mem_append.mp first
    exact .cons ⟨m, left, less, hl, hs⟩ ⟨m, right, less, hr, hi⟩ (ih rest)

theorem shaped_of_following {m : Nat} (less : m < n) {separator rule : Rule}
    {terminals : List Terminal} {trees : List SyntaxTree}
    (all : ∀ terminal ∈ terminals, P terminal)
    (h : Repeated (Following (Derives table m) false separator rule) terminals trees) :
    ∀ tree ∈ trees, Shaped table P n rule tree := by
  induction h with
  | nil => simp
  | cons one _ ih =>
    obtain ⟨first, rest⟩ := List.forall_mem_append.mp all
    obtain ⟨left, right, _, _, rfl, rfl, -, hi⟩ := one
    obtain ⟨-, hr⟩ := List.forall_mem_append.mp first
    exact List.forall_mem_cons.mpr ⟨⟨m, right, less, hr, hi⟩, ih rest⟩

theorem Shaped.split {primary secondary : Rule} {error : Option String}
    (h : Shaped table P n (.split primary secondary error) tree) :
    ∃ first rest, tree = .seq (first :: rest) ∧ Shaped table P n primary first ∧
      Alternating (Shaped table P n secondary) (Shaped table P n primary) rest := by
  obtain ⟨m, _, less, all, first, rest, value, more, rfl, rfl, derived, rounds⟩ := h.rule
  obtain ⟨hf, hr⟩ := List.forall_mem_append.mp all
  exact ⟨value, more, rfl, ⟨m, first, less, hf, derived⟩, alternating_of_following less hr rounds⟩

theorem Shaped.enclosed {left right element : Rule} {error : Option String}
    (h : Shaped table P n (.delimited left right none element error) tree) :
    Shaped table P n element tree := by
  obtain ⟨m, _, less, all, _, content, _, _, _, rfl, -, inside, -⟩ := h.rule
  exact ⟨m, content, less, fun t ht => all t (by simp [ht]), inside⟩

theorem Shaped.listed {left right separator element : Rule} {error : Option String}
    (h : Shaped table P n (.delimited left right (some separator) element error) tree) :
    ∃ trees, tree = .seq trees ∧ ∀ tree ∈ trees, Shaped table P n element tree := by
  obtain ⟨m, _, less, all, _, content, _, _, _, rfl, -, inside, -⟩ := h.rule
  have all : ∀ terminal ∈ content, P terminal := fun t ht => all t (by simp [ht])
  obtain ⟨-, rfl⟩ | ⟨first, rest, value, more, rfl, rfl, derived, rounds⟩ := inside
  · exact ⟨[], rfl, by simp⟩
  · obtain ⟨hf, hr⟩ := List.forall_mem_append.mp all
    exact ⟨value :: more, rfl, List.forall_mem_cons.mpr
      ⟨⟨m, first, less, hf, derived⟩, shaped_of_following less hr rounds⟩⟩

end PseudoLang.Grammar
