import Mathlib.Data.List.Chain
import Mathlib.Data.List.Forall2
import PseudoLang.Proofs.Precedence.Canonical

/-!
Words of roles: those of operators before their operand, then a term, and any number of times an
operator between two operands with another such group. If the elements of a sequence can take the
roles of a word, these are the roles that they take.
-/

namespace PseudoLang.Precedence

/-- After a term comes an operator between two operands, and after an operator anything else. -/
def Adjacent (left right : UInt8) : Prop :=
  if left = termRole then right = binaryRole else right = termRole ∨ right = unaryRole

/-- The roles of a sequence that can be read as an expression. -/
structure Word (roles : List UInt8) : Prop where
  first : ∀ role ∈ roles.head?, role = termRole ∨ role = unaryRole
  last : roles.getLast? = some termRole
  adjacent : roles.IsChain Adjacent

/-- An element with the roles of `mask` can take the role. -/
def Allows (mask role : UInt8) : Prop :=
  mask = role ∨ mask = eitherRole ∧ (role = binaryRole ∨ role = unaryRole)

theorem Allows.term_iff {mask role : UInt8} (h : Allows mask role) :
    mask = termRole ↔ role = termRole := by
  obtain rfl | ⟨rfl, rfl | rfl⟩ := h
  · rfl
  · decide
  · decide

theorem Allows.ne_zero {mask role : UInt8} (h : Allows mask role)
    (hr : role = termRole ∨ role = binaryRole ∨ role = unaryRole) : mask ≠ 0 := by
  obtain rfl | ⟨rfl, -⟩ := h
  · obtain rfl | rfl | rfl := hr <;> decide
  · decide

theorem Adjacent.role {left right : UInt8} (h : Adjacent left right) :
    right = termRole ∨ right = binaryRole ∨ right = unaryRole := by
  unfold Adjacent at h
  split at h
  · exact .inr (.inl h)
  · obtain h | h := h
    · exact .inl h
    · exact .inr (.inr h)

theorem narrow_eq_ok {neighbour mask left right : UInt8} (hl : Allows neighbour left)
    (hr : Allows mask right) (h : Adjacent left right) : narrow neighbour mask = .ok right := by
  unfold narrow
  unfold Adjacent at h
  by_cases term : neighbour = termRole
  · rw [if_pos (hl.term_iff.mp term)] at h
    rw [if_pos term]
    obtain rfl | ⟨rfl, -⟩ := hr
    · rw [h]
      decide
    · rw [h]
      decide
  · rw [if_neg (mt hl.term_iff.mpr term)] at h
    rw [if_neg term]
    obtain rfl | ⟨rfl, either⟩ := hr
    · obtain rfl | rfl := h <;> decide
    · obtain rfl | rfl := h
      · exact absurd either (by decide)
      · decide

/-- Narrowing from right to left finds a word, if the first element has been narrowed before. The
lists run from right to left. -/
theorem narrowAll_eq_ok {left : List UInt8} :
    ∀ {current role : UInt8} {before decided : List UInt8},
      List.Forall₂ Allows (current :: left) (role :: before) →
      (role :: before).IsChain (fun right left => Adjacent left right) →
      (current :: left).getLast? = (role :: before).getLast? →
      narrowAll left current decided = .ok (before.reverse ++ role :: decided) := by
  induction left with
  | nil =>
    intro current role before decided allows _ first
    obtain ⟨-, rest⟩ := List.forall₂_cons.mp allows
    rw [List.forall₂_nil_left_iff.mp rest] at first ⊢
    cases first
    rfl
  | cons neighbour left ih =>
    intro current role before decided allows adjacent first
    obtain ⟨allowed, rest⟩ := List.forall₂_cons.mp allows
    obtain ⟨next, before, next_allowed, -, rfl⟩ := List.forall₂_cons_left_iff.mp rest
    rw [List.isChain_cons_cons] at adjacent
    unfold narrowAll
    rw [narrow_eq_ok next_allowed allowed adjacent.1]
    simp only [List.getLast?_cons_cons] at first
    simp [ih rest adjacent.2 first]

theorem Word.role {roles : List UInt8} (h : Word roles) :
    ∀ role ∈ roles, role = termRole ∨ role = binaryRole ∨ role = unaryRole := by
  intro role hr
  obtain ⟨before, after, rfl⟩ := List.append_of_mem hr
  cases before using List.reverseRecOn with
  | nil =>
    obtain first | first := h.first role (by simp)
    · exact .inl first
    · exact .inr (.inr first)
  | append_singleton before left =>
    have adjacent := h.adjacent
    rw [List.append_assoc, List.singleton_append, List.isChain_append_cons_cons] at adjacent
    exact adjacent.2.1.role

theorem allows_narrowFirst {masks roles : List UInt8} (word : Word roles)
    (allows : List.Forall₂ Allows masks roles) :
    List.Forall₂ Allows (narrowFirst masks) roles ∧ (narrowFirst masks).head? = roles.head? := by
  cases allows with
  | nil => exact ⟨.nil, rfl⟩
  | @cons mask role masks roles allowed rest =>
    have first := word.first role (by simp)
    by_cases either : mask = eitherRole
    · have unary : role = unaryRole := by
        obtain rfl | rfl := first
        · exact absurd (allowed.term_iff.mpr rfl) (by rw [either]; decide)
        · rfl
      simp only [narrowFirst, if_pos either, unary]
      exact ⟨.cons (.inl rfl) rest, rfl⟩
    · have same : mask = role := allowed.resolve_right fun h => either h.1
      simp only [narrowFirst, if_neg either]
      exact ⟨.cons allowed rest, by rw [same]; rfl⟩

theorem roleless_eq_nil_iff {masks : List UInt8} :
    roleless masks = [] ↔ ∀ mask ∈ masks, mask ≠ 0 := by
  unfold roleless
  rw [List.map_eq_nil_iff, List.filter_eq_nil_iff]
  constructor
  · intro all mask hm
    obtain ⟨position, here⟩ := List.mem_iff_getElem?.mp hm
    simpa using all _ (List.mk_mem_zipIdx_iff_getElem?.mpr here)
  · rintro nonzero ⟨mask, position⟩ hm
    have := nonzero mask (List.fst_mem_of_mem_zipIdx hm)
    simpa using this

theorem roleless_eq_nil {masks roles : List UInt8} (word : Word roles)
    (allows : List.Forall₂ Allows masks roles) : roleless masks = [] := by
  rw [roleless_eq_nil_iff]
  have proper := word.role
  clear word
  induction allows with
  | nil => simp
  | cons allowed _ ih =>
    intro mask hm
    obtain rfl | hm := List.mem_cons.mp hm
    · exact allowed.ne_zero (proper _ (by simp))
    · exact ih (fun role hr => proper role (by simp [hr])) mask hm

/-- Elements that can take the roles of a word take them. -/
theorem decideRoles_eq_ok {masks roles : List UInt8} (word : Word roles)
    (allows : List.Forall₂ Allows masks roles) : decideRoles masks = .ok roles := by
  obtain ⟨narrowed, same⟩ := allows_narrowFirst word allows
  unfold decideRoles
  generalize narrowFirst masks = masks at narrowed same
  have reversed := List.rel_reverse narrowed
  have last := word.last
  cases hm : masks.reverse with
  | nil =>
    rw [hm, List.forall₂_nil_left_iff, List.reverse_eq_nil_iff] at reversed
    rw [reversed] at last
    cases last
  | cons current left =>
    rw [hm] at reversed
    obtain ⟨role, before, allowed, rest, hr⟩ := List.forall₂_cons_left_iff.mp reversed
    have hroles : roles = before.reverse ++ [role] := by
      rw [← List.reverse_cons, ← hr, List.reverse_reverse]
    have term : role = termRole := by
      rw [hroles, List.getLast?_append] at last
      simpa using last
    have starts : masks.head? ≠ some binaryRole := by
      rw [same]
      intro h
      obtain h | h := word.first _ h <;> exact absurd h (by decide)
    have ends : (role :: before).getLast? = masks.head? := by
      rw [same, hroles, ← List.reverse_cons, List.head?_reverse]
    have starts' : (current :: left).getLast? = masks.head? := by
      rw [← hm, List.getLast?_reverse]
    have adjacent : (role :: before).IsChain fun right left => Adjacent left right := by
      rw [← hr, List.isChain_reverse]
      exact word.adjacent
    simp only [hm]
    rw [if_neg starts, if_neg (not_not.mpr (allowed.term_iff.mpr term)),
      if_neg (not_not.mpr (roleless_eq_nil word narrowed)),
      narrowAll_eq_ok (.cons allowed rest) adjacent (starts'.trans ends.symm), hroles]

/-- What an element can be, as a set of roles. -/
def Element.mask {α : Type} (powers : Powers) : Element α → UInt8
  | term _ => termRole
  | operator name => powers.roles name

/-! ## The roles of a tree -/

namespace OperatorTree

variable {α : Type} {powers : Powers}

theorem roles_ne_nil (tree : OperatorTree α) : tree.roles ≠ [] := by
  cases tree <;> simp [roles]

theorem word_roles (tree : OperatorTree α) : Word tree.roles := by
  induction tree with
  | term => exact ⟨by simp [roles], rfl, List.isChain_singleton _⟩
  | binary operator left right ihl ihr =>
    refine ⟨?_, ?_, ?_⟩
    · rw [roles, List.head?_append_of_ne_nil _ left.roles_ne_nil]
      exact ihl.first
    · rw [roles, List.getLast?_append_of_ne_nil _ (by simp),
        List.getLast?_cons_of_ne_nil right.roles_ne_nil]
      exact ihr.last
    · rw [roles, List.isChain_append]
      refine ⟨ihl.adjacent, ihr.adjacent.cons ?_, ?_⟩
      · intro role hr
        exact ihr.first role hr
      · intro role hr next hn
        rw [ihl.last] at hr
        cases hr
        cases hn
        rw [Adjacent, if_pos rfl]
  | unary operator operand ih =>
    refine ⟨by simp [roles], ?_, ih.adjacent.cons ?_⟩
    · rw [roles, List.getLast?_cons_of_ne_nil operand.roles_ne_nil]
      exact ih.last
    · intro role hr
      exact ih.first role hr

theorem allows_binary {name : String} (h : (powers.binary? name).isSome) :
    Allows (powers.roles name) binaryRole := by
  unfold Powers.roles
  rw [if_pos h]
  split
  · exact .inr ⟨by decide, .inl rfl⟩
  · exact .inl (by decide)

theorem allows_unary {name : String} (h : (powers.unary? name).isSome) :
    Allows (powers.roles name) unaryRole := by
  unfold Powers.roles
  rw [if_pos h]
  split
  · exact .inr ⟨by decide, .inr rfl⟩
  · exact .inl (by decide)

theorem allows_roles (tree : OperatorTree α) (known : tree.Known powers) :
    List.Forall₂ Allows (tree.walk.map (Element.mask powers)) tree.roles := by
  induction tree with
  | term => exact .cons (.inl rfl) .nil
  | binary operator left right ihl ihr =>
    rw [walk, roles, List.map_append, List.map_cons]
    exact List.rel_append (ihl known.2.1) (.cons (allows_binary known.1) (ihr known.2.2))
  | unary operator operand ih => exact .cons (allows_unary known.1) (ih known.2)

end OperatorTree

end PseudoLang.Precedence
