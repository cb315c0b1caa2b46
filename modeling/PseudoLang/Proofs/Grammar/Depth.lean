import PseudoLang.Proofs.Grammar.Derivation
import PseudoLang.Proofs.Precedence.Resolution
import PseudoLang.Proofs.SyntaxTree.Height

/-!
How deep the trees of a grammar are. Every rule puts at most one node on top of the trees of the
rules inside it, and a filter starts again from a tree that is no deeper than an expression may be.
-/

namespace PseudoLang.Grammar

open SyntaxTree (height heightOfAll_le)

/-- Terms and operators that are joined are joined into their canonical tree. -/
theorem Filter.precedence_eq_ok {value tree : SyntaxTree} (h : precedence value = .ok (some tree)) :
    tree.depth ≤ Precedence.maxNesting ∧
    ∃ (items : List SyntaxTree) (operators : Precedence.OperatorTree SyntaxTree),
      value = .seq items ∧ tree = join operators ∧ operators.walk = items.map elementOf ∧
      operators.Known .language ∧ operators.Canonical .language := by
  unfold precedence at h
  split at h
  · cases h
  · rename_i items _
    obtain ⟨operators, resolved, h⟩ := bind_eq_ok.mp h
    obtain ⟨walk, known, canonical, -⟩ := Precedence.resolve_eq_ok resolved
    dsimp only at h
    split at h
    · cases h
    · rename_i fits
      cases h
      exact ⟨Nat.le_of_not_lt fits, items, operators, rfl, rfl, walk, known, canonical⟩
  · cases h

theorem Filter.height_precedence {value tree : SyntaxTree}
    (h : precedence value = .ok (some tree)) : tree.height ≤ Precedence.maxNesting := by
  rw [← SyntaxTree.depth_eq_height]
  exact (precedence_eq_ok h).1

theorem Filter.named?_eq_some {name : String} {filter : Filter} (h : named? name = some filter) :
    filter = precedence := by
  unfold named? at h
  split at h
  · cases h
    rfl
  · cases h

theorem height_le_of_derivesRule {table : Table} {inner : Derivation} (bound : Nat)
    (hb : Precedence.maxNesting ≤ bound)
    (hi : ∀ rule terminals tree, inner rule terminals tree → tree.height ≤ bound)
    {rule : Rule} {terminals : List Terminal} {tree : SyntaxTree}
    (h : DerivesRule table inner rule terminals tree) : tree.height ≤ bound + 1 := by
  have items {trees : List SyntaxTree} (h : ∀ tree ∈ trees, tree.height ≤ bound) :
      (SyntaxTree.seq trees).height ≤ bound + 1 := by
    rw [height, Nat.add_le_add_iff_right]
    exact heightOfAll_le.mpr h
  have content {separator : Option Rule} {element : Rule} {terminals : List Terminal}
      {tree : SyntaxTree} (h : Content inner separator element terminals tree) :
      tree.height ≤ bound + 1 := by
    cases separator with
    | none => exact Nat.le_succ_of_le (hi _ _ _ h)
    | some separator =>
      obtain ⟨-, rfl⟩ | ⟨_, _, value, more, -, rfl, first, rest⟩ := h
      · exact items (by simp)
      · exact items (List.forall_mem_cons.mpr
          ⟨hi _ _ _ first, rest.all fun _ _ round => round.all hi⟩)
  cases rule with
  | reference name =>
    obtain ⟨_, rule, -, derived⟩ := h
    exact Nat.le_succ_of_le (hi _ _ _ derived)
  | token kind error =>
    obtain ⟨value, -, rfl⟩ := h
    rw [height]
    omega
  | filter name rule =>
    obtain ⟨filter, value, known, filtered, -⟩ := h
    rw [Filter.named?_eq_some known] at filtered
    have := Filter.height_precedence filtered
    omega
  | optional rule =>
    obtain ⟨-, rfl⟩ | ⟨value, rfl, derived⟩ := h
    · exact items (by simp)
    · exact items (List.forall_mem_singleton.mpr (hi _ _ _ derived))
  | many rule =>
    obtain ⟨trees, rfl, rounds⟩ := h
    exact items (rounds.all fun _ _ round => round.all hi)
  | cycle rules =>
    obtain ⟨trees, rfl, rounds⟩ := h
    exact items (rounds.all fun _ _ round => round.all hi)
  | split primary secondary error =>
    obtain ⟨_, _, value, more, -, rfl, first, rest⟩ := h
    exact items (List.forall_mem_cons.mpr
      ⟨hi _ _ _ first, rest.all fun _ _ round => round.all hi⟩)
  | sequence rules error =>
    obtain ⟨trees, rfl, turns⟩ := h
    exact items (turns.all hi)
  | delimited left right separator element error =>
    obtain ⟨_, _, _, _, _, -, -, inside, -⟩ := h
    exact content inside
  | choice alternatives error =>
    obtain ⟨tag, rule, value, -, rfl, derived⟩ := h
    have := hi _ _ _ derived
    rw [height]
    omega
  | required rule error => exact Nat.le_succ_of_le (hi _ _ _ h)
  | pair left separator right =>
    obtain ⟨value, rfl, derived⟩ | ⟨value, rfl, derived⟩ |
      ⟨_, _, _, before, between, after, -, rfl, first, -, last⟩ := h
    · have := hi _ _ _ derived
      simp only [height, SyntaxTree.heightOfPart]
      omega
    · have := hi _ _ _ derived
      simp only [height, SyntaxTree.heightOfPart]
      omega
    · have := hi _ _ _ first
      have := hi _ _ _ last
      simp only [height, SyntaxTree.heightOfPart]
      omega

/-- A tree is at most as deep as rules nest, with an expression at the end. -/
theorem height_le_of_derives {table : Table} {room : Nat} :
    ∀ {rule : Rule} {terminals : List Terminal} {tree : SyntaxTree},
      Derives table room rule terminals tree → tree.height ≤ room + Precedence.maxNesting := by
  induction room with
  | zero => exact fun h => h.elim
  | succ room ih =>
    intro rule terminals tree h
    have := height_le_of_derivesRule (room + Precedence.maxNesting) (by omega)
      (fun _ _ _ => ih) h
    omega

end PseudoLang.Grammar
