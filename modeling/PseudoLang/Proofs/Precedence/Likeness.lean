import Mathlib.Data.List.Forall2
import PseudoLang.Proofs.Outcome
import PseudoLang.Proofs.Precedence.Canonical

/-!
Trees of one form. What a tree of operators looks like does not depend on what its terms are, and
neither does whether it is canonical.
-/

namespace PseudoLang.Precedence

variable {α β : Type} {powers : Powers} {related : α → β → Prop}

/-- Two lists that are related to a third are related. -/
theorem forall₂_through {γ : Type} {other : γ → β → Prop} {both : α → γ → Prop} {as : List α}
    {bs : List β} {cs : List γ} (h : List.Forall₂ related as bs) (ho : List.Forall₂ other cs bs)
    (hb : ∀ a b c, related a b → other c b → both a c) : List.Forall₂ both as cs := by
  induction h generalizing cs with
  | nil =>
    cases ho
    exact .nil
  | cons first _ ih =>
    obtain _ | ⟨one, rest⟩ := ho
    exact .cons (hb _ _ _ first one) (ih rest)

theorem exists_of_mem_forall₂ {as : List α} {bs : List β} (h : List.Forall₂ related as bs)
    {a : α} (member : a ∈ as) : ∃ b ∈ bs, related a b := by
  induction h with
  | nil => cases member
  | cons first _ ih =>
    rw [List.mem_cons] at member
    obtain rfl | later := member
    · exact ⟨_, List.mem_cons_self, first⟩
    · obtain ⟨b, hb, same⟩ := ih later
      exact ⟨b, List.mem_cons_of_mem _ hb, same⟩

/-- The same operator, or two terms that are related. -/
inductive Element.Alike (related : α → β → Prop) : Element α → Element β → Prop
  | term {a : α} {b : β} (h : related a b) : Alike related (.term a) (.term b)
  | operator (name : String) : Alike related (.operator name) (.operator name)

namespace OperatorTree

/-- The same operators in the same places, over terms that are related. -/
inductive Alike (related : α → β → Prop) : OperatorTree α → OperatorTree β → Prop
  | term {a : α} {b : β} (h : related a b) : Alike related (term a) (term b)
  | binary (operator : String) {left right : OperatorTree α} {left' right' : OperatorTree β}
    (hl : Alike related left left') (hr : Alike related right right') :
    Alike related (binary operator left right) (binary operator left' right')
  | unary (operator : String) {operand : OperatorTree α} {operand' : OperatorTree β}
    (h : Alike related operand operand') :
    Alike related (unary operator operand) (unary operator operand')

/-- Elements that are like those of a tree are the elements of a tree like it. -/
theorem exists_alike {tree : OperatorTree α} :
    ∀ {elements : List (Element β)}, List.Forall₂ (Element.Alike related) tree.walk elements →
      ∃ other, other.walk = elements ∧ tree.Alike related other := by
  induction tree with
  | term a =>
    intro elements h
    obtain ⟨_, _, one, none, rfl⟩ := List.forall₂_cons_left_iff.mp h
    obtain rfl := List.forall₂_nil_left_iff.mp none
    cases one with
    | term related => exact ⟨.term _, rfl, .term related⟩
  | binary operator left right ihl ihr =>
    intro elements h
    obtain ⟨first, _, hl, hm, rfl⟩ := forall₂_append_left h
    obtain ⟨_, last, one, hr, rfl⟩ := List.forall₂_cons_left_iff.mp hm
    cases one
    obtain ⟨left', rfl, alike_left⟩ := ihl hl
    obtain ⟨right', rfl, alike_right⟩ := ihr hr
    exact ⟨.binary operator left' right', rfl, .binary operator alike_left alike_right⟩
  | unary operator operand ih =>
    intro elements h
    obtain ⟨_, more, one, rest, rfl⟩ := List.forall₂_cons_left_iff.mp h
    cases one
    obtain ⟨operand', rfl, alike⟩ := ih rest
    exact ⟨.unary operator operand', rfl, .unary operator alike⟩

namespace Alike

variable {tree : OperatorTree α} {other : OperatorTree β}

theorem flip (h : tree.Alike related other) : other.Alike (flip related) tree := by
  induction h with
  | term h => exact .term h
  | binary operator _ _ ihl ihr => exact .binary operator ihl ihr
  | unary operator _ ih => exact .unary operator ih

theorem walk (h : tree.Alike related other) :
    List.Forall₂ (Element.Alike related) tree.walk other.walk := by
  induction h with
  | term h => exact .cons (.term h) .nil
  | binary operator _ _ ihl ihr => exact List.rel_append ihl (.cons (.operator operator) ihr)
  | unary operator _ ih => exact .cons (.operator operator) ih

theorem leftSpine (h : tree.Alike related other) :
    tree.leftSpine powers = other.leftSpine powers := by
  induction h with
  | term => rfl
  | binary operator _ _ ihl _ => rw [OperatorTree.leftSpine, OperatorTree.leftSpine, ihl]
  | unary => rfl

theorem rightSpine (h : tree.Alike related other) :
    tree.rightSpine powers = other.rightSpine powers := by
  induction h with
  | term => rfl
  | binary operator _ _ _ ihr => rw [OperatorTree.rightSpine, OperatorTree.rightSpine, ihr]
  | unary operator _ ih => rw [OperatorTree.rightSpine, OperatorTree.rightSpine, ih]

theorem known (h : tree.Alike related other) (known : tree.Known powers) : other.Known powers := by
  induction h with
  | term => trivial
  | binary operator _ _ ihl ihr => exact ⟨known.1, ihl known.2.1, ihr known.2.2⟩
  | unary operator _ ih => exact ⟨known.1, ih known.2⟩

theorem canonical (h : tree.Alike related other) (canonical : tree.Canonical powers) :
    other.Canonical powers := by
  induction h with
  | term => trivial
  | binary operator hl hr ihl ihr =>
    obtain ⟨tighter, alone, left, right⟩ := canonical
    rw [hr.leftSpine] at tighter
    rw [hl.rightSpine] at alone
    exact ⟨tighter, alone, ihl left, ihr right⟩
  | unary operator h ih =>
    obtain ⟨tighter, operand⟩ := canonical
    rw [h.leftSpine] at tighter
    exact ⟨tighter, ih operand⟩

end Alike

end OperatorTree

end PseudoLang.Precedence
