import Mathlib.Computability.RegularExpressions
import PseudoLang.Proofs.Precedence.Totality

/-!
Words of roles as a regular language. An operand is a term with any number of operators before it,
and an expression consists of operands with an operator between each two (`expressionPattern`).
Roles are decided for a sequence exactly if its elements can take the roles of such a word, in the
one way in which they can (`decideRoles_regular`). If two neighbours are to blame, they are the
last two that no expression has next to each other.
-/

namespace PseudoLang.Precedence

open RegularExpression (char star)

/-! ## The language of roles -/

/-- A term after any number of operators. -/
def operandPattern : RegularExpression UInt8 := star (char unaryRole) * char termRole

/-- Operands with an operator between each two. -/
def expressionPattern : RegularExpression UInt8 :=
  operandPattern * star (char binaryRole * operandPattern)

theorem Word.term : Word [termRole] := ⟨by simp, rfl, List.isChain_singleton _⟩

theorem Word.joined {roles : List UInt8} (h : Word roles) :
    Word (termRole :: binaryRole :: roles) := by
  obtain ⟨first, last, adjacent⟩ := h
  refine ⟨by simp, ?_, ?_⟩
  · cases roles with
    | nil => cases last
    | cons role roles => simpa [List.getLast?_cons_cons] using last
  · refine .cons_cons (by rw [Adjacent, if_pos rfl]) (adjacent.cons ?_)
    intro role member
    rw [Adjacent, if_neg (by decide)]
    exact first role member

theorem Word.prefixed {roles : List UInt8} (h : Word roles) : Word (unaryRole :: roles) := by
  obtain ⟨first, last, adjacent⟩ := h
  refine ⟨by simp, ?_, adjacent.cons ?_⟩
  · cases roles with
    | nil => cases last
    | cons role roles => simpa [List.getLast?_cons_cons] using last
  · intro role member
    rw [Adjacent, if_neg (by decide)]
    exact first role member

/-- Whatever may follow a term may follow an operand. -/
theorem Word.operand {roles rest : List UInt8} (h : roles ∈ operandPattern.matches')
    (word : Word (termRole :: rest)) : Word (roles ++ rest) := by
  obtain ⟨before, prefixes, last, rfl, rfl⟩ := h
  obtain ⟨parts, rfl, each⟩ := Language.mem_kstar.mp prefixes
  induction parts with
  | nil => exact word
  | cons part parts ih =>
    obtain ⟨here, later⟩ := List.forall_mem_cons.mp each
    obtain rfl : part = [unaryRole] := here
    exact (ih later (Language.join_mem_kstar later)).prefixed

theorem Word.operands {roles : List UInt8}
    (h : roles ∈ (star (char binaryRole * operandPattern)).matches') :
    Word (termRole :: roles) := by
  obtain ⟨parts, rfl, each⟩ := Language.mem_kstar.mp h
  induction parts with
  | nil => exact .term
  | cons part parts ih =>
    obtain ⟨⟨first, rfl, operand, taken, rfl⟩, later⟩ := List.forall_mem_cons.mp each
    exact (Word.operand taken (ih later (Language.join_mem_kstar later))).joined

theorem append_mem_star {α : Type} (pattern : RegularExpression α) {first rest : List α}
    (hf : first ∈ pattern.matches') (hr : rest ∈ pattern.star.matches') :
    first ++ rest ∈ pattern.star.matches' :=
  Set.mem_of_mem_of_subset (Language.append_mem_mul hf hr)
    (mul_kstar_le_kstar (a := pattern.matches'))

theorem term_mem_operand : [termRole] ∈ operandPattern.matches' :=
  ⟨[], Language.nil_mem_kstar _, [termRole], rfl, rfl⟩

theorem unary_mem_operand {roles : List UInt8} (h : roles ∈ operandPattern.matches') :
    unaryRole :: roles ∈ operandPattern.matches' := by
  obtain ⟨before, prefixes, last, term, rfl⟩ := h
  exact ⟨_, append_mem_star (char unaryRole) rfl prefixes, last, term, rfl⟩

/-- The words of the pattern are those in which every role may stand next to its neighbour. -/
theorem mem_expression_iff {roles : List UInt8} :
    roles ∈ expressionPattern.matches' ↔ Word roles := by
  constructor
  · rintro ⟨operand, taken, rest, more, rfl⟩
    exact Word.operand taken (.operands more)
  · intro word
    induction length : roles.length using Nat.strongRecOn generalizing roles with
    | _ count ih =>
      obtain rfl | ⟨rest, rfl, after⟩ | ⟨rest, rfl, after⟩ := word.cases
      · exact ⟨_, term_mem_operand, [], Language.nil_mem_kstar _, rfl⟩
      · obtain ⟨operand, taken, others, more, rfl⟩ := ih _ (by simp at length; omega) after rfl
        refine ⟨_, term_mem_operand, binaryRole :: operand ++ others, ?_, rfl⟩
        exact append_mem_star (char binaryRole * operandPattern)
          ⟨[binaryRole], rfl, operand, taken, rfl⟩ more
      · obtain ⟨operand, taken, others, more, rfl⟩ := ih _ (by simp at length; omega) after rfl
        exact ⟨_, unary_mem_operand taken, others, more, rfl⟩

/-! ## Roles that elements can take -/

/-- A role out of those that the bits of a mask stand for. -/
def Contains (mask role : UInt8) : Prop :=
  (role = termRole ∨ role = binaryRole ∨ role = unaryRole) ∧ mask &&& role = role

/-- Roles that the elements can take and that make up an expression. -/
structure Reading (masks roles : List UInt8) : Prop where
  contained : List.Forall₂ Contains masks roles
  expression : roles ∈ expressionPattern.matches'

theorem contains_iff {mask role : UInt8} (possible : mask = 0 ∨ Usable mask) :
    Contains mask role ↔
      Allows mask role ∧ (role = termRole ∨ role = binaryRole ∨ role = unaryRole) := by
  constructor
  · rintro ⟨rfl | rfl | rfl, bits⟩ <;> obtain rfl | rfl | rfl | rfl | rfl := possible <;>
      revert bits <;> decide
  · rintro ⟨rfl | ⟨rfl, rfl | rfl⟩, proper⟩
    · exact ⟨proper, UInt8.and_self⟩
    · exact ⟨proper, by decide⟩
    · exact ⟨proper, by decide⟩

theorem reading_iff {masks roles : List UInt8} (possible : ∀ mask ∈ masks, mask = 0 ∨ Usable mask) :
    Reading masks roles ↔ Word roles ∧ List.Forall₂ Allows masks roles := by
  constructor
  · rintro ⟨contained, expression⟩
    refine ⟨mem_expression_iff.mp expression, ?_⟩
    rw [List.forall₂_iff_zip] at contained ⊢
    refine ⟨contained.1, fun pair => ?_⟩
    exact ((contains_iff (possible _ (List.of_mem_zip pair).1)).mp (contained.2 pair)).1
  · rintro ⟨word, allows⟩
    refine ⟨?_, mem_expression_iff.mpr word⟩
    rw [List.forall₂_iff_zip] at allows ⊢
    refine ⟨allows.1, fun pair => ?_⟩
    obtain ⟨mask, role⟩ := List.of_mem_zip pair
    exact (contains_iff (possible _ mask)).mpr ⟨allows.2 pair, word.role _ role⟩

/-! ## Neighbours that no expression has -/

/-- Whichever of their roles two elements take, they do not stand next to each other in any
expression. -/
def Clash (left right : UInt8) : Prop :=
  ∀ before l r after, before ++ l :: r :: after ∈ expressionPattern.matches' →
    Contains left l → ¬ Contains right r

/-- The element at `position` and the next one clash. -/
def ClashAt (masks : List UInt8) (position : Nat) : Prop :=
  ∃ left right, masks[position]? = some left ∧ masks[position + 1]? = some right ∧ Clash left right

/-- No two elements further to the right clash. -/
structure LastClash (masks : List UInt8) (position : Nat) : Prop where
  clash : ClashAt masks position
  last : ∀ later, position < later → ¬ ClashAt masks later

/-- Roles that may stand next to each other do so in some expression. -/
theorem exists_word_of_adjacent {left right : UInt8}
    (proper : left = termRole ∨ left = binaryRole ∨ left = unaryRole) (h : Adjacent left right) :
    ∃ before after, Word (before ++ left :: right :: after) := by
  unfold Adjacent at h
  obtain rfl | rfl | rfl := proper
  · rw [if_pos rfl] at h
    exact ⟨[], [termRole], h ▸ Word.term.joined⟩
  · rw [if_neg (by decide)] at h
    obtain rfl | rfl := h
    · exact ⟨[termRole], [], Word.term.joined⟩
    · exact ⟨[termRole], [termRole], Word.term.prefixed.joined⟩
  · rw [if_neg (by decide)] at h
    obtain rfl | rfl := h
    · exact ⟨[], [], Word.term.prefixed⟩
    · exact ⟨[], [termRole], Word.term.prefixed.prefixed⟩

theorem Usable.exists_allows {mask : UInt8} (h : Usable mask) :
    ∃ role, Allows mask role ∧ (role = termRole ∨ role = binaryRole ∨ role = unaryRole) := by
  obtain rfl | rfl | rfl | rfl := h
  · exact ⟨_, .inl rfl, .inl rfl⟩
  · exact ⟨_, .inl rfl, .inr (.inl rfl)⟩
  · exact ⟨_, .inl rfl, .inr (.inr rfl)⟩
  · exact ⟨_, .inr ⟨rfl, .inl rfl⟩, .inr (.inl rfl)⟩

/-- Two elements clash if there is no role for the right one after the left one. -/
theorem clash_iff {neighbour mask : UInt8} (hn : Usable neighbour) (hm : Usable mask) :
    Clash neighbour mask ↔ ∃ message, narrow neighbour mask = .error message := by
  constructor
  · intro clash
    cases narrowed : narrow neighbour mask with
    | error message => exact ⟨message, rfl⟩
    | ok right =>
      obtain ⟨allowed, adjacent⟩ := narrow_sound hm narrowed
      obtain ⟨left, takes, proper⟩ := hn.exists_allows
      have next := adjacent left takes
      obtain ⟨before, after, word⟩ := exists_word_of_adjacent proper next
      have contained := (contains_iff (.inr hn)).mpr ⟨takes, proper⟩
      have follows := (contains_iff (.inr hm)).mpr ⟨allowed, next.role⟩
      exact absurd follows (clash before left right after (mem_expression_iff.mpr word) contained)
  · rintro ⟨message, failed⟩ before left right after word contained follows
    have adjacent := (List.isChain_append_cons_cons.mp (mem_expression_iff.mp word).adjacent).2.1
    rw [narrow_eq_ok ((contains_iff (.inr hn)).mp contained).1
      ((contains_iff (.inr hm)).mp follows).1 adjacent] at failed
    cases failed

/-- Narrowing from right to left stops at the first clash that it meets. What stands to the right
of the current element is free of clashes. -/
theorem narrowAll_clash {left : List UInt8} :
    ∀ {current : UInt8} {after decided : List UInt8} {cause : Cause},
      (∀ mask ∈ current :: left, Usable mask) →
      (∀ later, left.length ≤ later → ¬ ClashAt (left.reverse ++ current :: after) later) →
      narrowAll left current decided = .error cause →
      ∃ message position narrowed,
        cause = .contradiction message [position, position + 1] narrowed ∧
        LastClash (left.reverse ++ current :: after) position := by
  induction left with
  | nil =>
    intro current after decided cause _ _ h
    cases h
  | cons neighbour left ih =>
    intro current after decided cause usable free h
    obtain ⟨hc, hl⟩ := List.forall_mem_cons.mp usable
    have hn := (List.forall_mem_cons.mp hl).1
    rw [List.reverse_cons, List.append_assoc, List.singleton_append, List.length_cons] at free
    rw [List.reverse_cons, List.append_assoc, List.singleton_append]
    have here : ClashAt (left.reverse ++ neighbour :: current :: after) left.length ↔
        Clash neighbour current := by
      simp [ClashAt]
    unfold narrowAll at h
    split at h
    · rename_i role narrowed
      refine ih hl ?_ h
      intro later bound
      obtain rfl | further := Nat.eq_or_lt_of_le bound
      · rw [here, clash_iff hn hc, narrowed]
        rintro ⟨_, ⟨⟩⟩
      · exact free later further
    · rename_i message narrowed
      cases h
      have clash := here.mpr ((clash_iff hn hc).mpr ⟨message, narrowed⟩)
      refine ⟨message, left.length, _, rfl, clash, ?_⟩
      exact fun later further => free later further

/-- Narrowing the first element takes and leaves the clashes as they are. -/
theorem clashAt_narrowFirst {masks : List UInt8} (usable : ∀ mask ∈ masks, Usable mask)
    (position : Nat) : ClashAt (narrowFirst masks) position ↔ ClashAt masks position := by
  cases masks with
  | nil => rfl
  | cons first masks =>
    cases position with
    | succ position => rfl
    | zero =>
      by_cases either : first = eitherRole
      · subst either
        cases masks with
        | nil => simp [ClashAt, narrowFirst]
        | cons next masks =>
          have hn := usable next (by simp)
          have same : narrow unaryRole next = narrow eitherRole next := by
            rw [narrow, if_neg (show unaryRole ≠ termRole by decide), narrow,
              if_neg (show eitherRole ≠ termRole by decide)]
          have unary : Clash unaryRole next ↔ Clash eitherRole next := by
            rw [clash_iff (.inr (.inr (.inl rfl))) hn, clash_iff (.inr (.inr (.inr rfl))) hn, same]
          simpa [ClashAt, narrowFirst] using unary
      · simp only [narrowFirst, if_neg either]

/-! ## Which sequences have roles -/

theorem head?_of_narrowFirst {masks : List UInt8}
    (h : (narrowFirst masks).head? = some binaryRole) :
    masks.head? = some binaryRole := by
  cases masks with
  | nil => exact h
  | cons first masks =>
    by_cases either : first = eitherRole
    · rw [narrowFirst, if_pos either, List.head?_cons] at h
      exact absurd h (by decide)
    · rwa [narrowFirst, if_neg either] at h

theorem getLast?_narrowFirst {masks : List UInt8} (h : masks.getLast? = some termRole) :
    (narrowFirst masks).getLast? = some termRole := by
  match masks with
  | [] => exact h
  | [first] =>
    obtain rfl : first = termRole := by simpa using h
    decide
  | first :: next :: masks =>
    rw [List.getLast?_cons_cons] at h
    rw [narrowFirst, List.getLast?_cons_cons, h]

/-- Narrowing the first element takes its last role from none. -/
theorem roleless_narrowFirst {masks : List UInt8} :
    roleless (narrowFirst masks) = [] ↔ 0 ∉ masks := by
  rw [roleless_eq_nil_iff]
  cases masks with
  | nil => simp [narrowFirst]
  | cons first masks =>
    have kept : (if first = eitherRole then unaryRole else first) ≠ 0 ↔ first ≠ 0 := by
      split
      · rename_i either
        rw [either]
        decide
      · rfl
    rw [narrowFirst, List.forall_mem_cons, kept, List.mem_cons, not_or]
    exact and_congr ne_comm ⟨fun all zero => all 0 zero rfl, fun none mask member zero =>
      none (zero ▸ member)⟩

theorem lt_length_of_mem_roleless {masks : List UInt8} {position : Nat}
    (h : position ∈ roleless masks) : position < masks.length := by
  obtain ⟨⟨mask, index⟩, member, rfl⟩ := List.mem_map.mp h
  have here := List.mk_mem_zipIdx_iff_getElem?.mp (List.mem_of_mem_filter member)
  exact (List.getElem?_eq_some_iff.mp here).1

theorem ClashAt.lt_length {masks : List UInt8} {position : Nat} (h : ClashAt masks position) :
    position + 1 < masks.length := by
  obtain ⟨_, _, _, next, _⟩ := h
  exact (List.getElem?_eq_some_iff.mp next).1

/-- Apart from its ends and from elements without any role, a sequence is at fault for the last two
neighbours that clash. -/
theorem decideRoles_positions {masks : List UInt8} {cause : Cause}
    (possible : ∀ mask ∈ masks, mask = 0 ∨ Usable mask) (h : decideRoles masks = .error cause) :
    ∃ message positions narrowed, cause = .contradiction message positions narrowed ∧
      (∀ position ∈ positions, position < masks.length) ∧
      (masks ≠ [] → 0 ∉ masks → masks.head? ≠ some binaryRole → masks.getLast? = some termRole →
        ∃ position, positions = [position, position + 1] ∧ LastClash masks position) := by
  have length := length_narrowFirst masks
  unfold decideRoles at h
  dsimp only at h
  split at h
  · rename_i empty
    cases h
    refine ⟨_, _, _, rfl, by simp, fun some => ?_⟩
    rw [List.reverse_eq_nil_iff.mp empty] at length
    exact absurd (List.eq_nil_of_length_eq_zero length.symm) some
  rename_i last left reversed
  have whole : narrowFirst masks = left.reverse ++ [last] := by
    rw [← List.reverse_cons, ← reversed, List.reverse_reverse]
  have size : left.length + 1 = masks.length := by
    rw [← length, whole, List.length_append, List.length_reverse, List.length_singleton]
  split at h
  · rename_i starts
    cases h
    refine ⟨_, _, _, rfl, ?_, fun _ _ first _ => absurd (head?_of_narrowFirst starts) first⟩
    simp only [List.mem_singleton, forall_eq]
    omega
  split at h
  · rename_i ends
    cases h
    refine ⟨_, _, _, rfl, ?_, fun _ _ _ final => ?_⟩
    · simp only [List.mem_singleton, forall_eq]
      omega
    · have kept := getLast?_narrowFirst final
      rw [whole, List.getLast?_append] at kept
      exact absurd (Option.some.inj kept) ends
  split at h
  · rename_i some
    cases h
    refine ⟨_, _, _, rfl, ?_, fun _ nonzero _ _ => absurd (roleless_narrowFirst.mpr nonzero) some⟩
    intro position member
    rw [← length]
    exact lt_length_of_mem_roleless member
  · rename_i none
    obtain ⟨usable, -⟩ := usable_narrowFirst possible (not_not.mp none)
    have nonzero := roleless_narrowFirst.mp (not_not.mp none)
    have usable' : ∀ mask ∈ masks, Usable mask := fun mask member =>
      (possible mask member).resolve_left fun zero => nonzero (zero ▸ member)
    have free (later : Nat) (bound : left.length ≤ later) :
        ¬ ClashAt (left.reverse ++ [last]) later := by
      intro clash
      have inside := clash.lt_length
      rw [← whole, length] at inside
      omega
    obtain ⟨message, position, narrowed, rfl, clash, final⟩ :=
      narrowAll_clash (fun mask member => usable mask (by rw [whole]; simpa [or_comm] using member))
        free h
    rw [← whole] at clash final
    rw [clashAt_narrowFirst usable'] at clash
    refine ⟨message, _, narrowed, rfl, ?_, fun _ _ _ _ => ⟨position, rfl, clash, ?_⟩⟩
    · have inside := clash.lt_length
      simp only [List.mem_cons, List.not_mem_nil, or_false, forall_eq_or_imp, forall_eq]
      omega
    · intro later further
      rw [← clashAt_narrowFirst usable']
      exact final later further

/-- Roles are decided for a sequence exactly if it can be read as an expression, in one way only.
Where they cannot be decided, the positions named are in the sequence; if neither its ends nor
elements without roles are at fault, they are those of the last two neighbours that clash. -/
theorem decideRoles_regular {masks : List UInt8}
    (possible : ∀ mask ∈ masks, mask = 0 ∨ Usable mask) :
    (∀ roles, decideRoles masks = .ok roles ↔ Reading masks roles) ∧
    (∀ roles others, Reading masks roles → Reading masks others → others = roles) ∧
    ∀ cause, decideRoles masks = .error cause →
      ∃ message positions narrowed, cause = .contradiction message positions narrowed ∧
        (∀ position ∈ positions, position < masks.length) ∧
        (masks ≠ [] → 0 ∉ masks → masks.head? ≠ some binaryRole →
          masks.getLast? = some termRole →
          ∃ position, positions = [position, position + 1] ∧ LastClash masks position) := by
  have decided (roles : List UInt8) : decideRoles masks = .ok roles ↔ Reading masks roles := by
    rw [reading_iff possible]
    constructor
    · exact word_of_decideRoles possible
    · rintro ⟨word, allows⟩
      exact decideRoles_eq_ok word allows
  refine ⟨decided, ?_, fun cause => decideRoles_positions possible⟩
  intro roles others one other
  have found := (decided roles).mpr one
  rw [(decided others).mpr other] at found
  cases found
  rfl

/-- In `1 - - NOT - 2` only the first minus stands between two operands. In `a b + + c` both
neighbours of `b` are at fault, and so are the two operators, which are named. -/
theorem decideRoles_regular_ambiguous :
    (∀ roles, Reading [termRole, eitherRole, eitherRole, unaryRole, eitherRole, termRole] roles ↔
      roles = [termRole, binaryRole, unaryRole, unaryRole, unaryRole, termRole]) ∧
    ∃ message narrowed,
      decideRoles [termRole, termRole, binaryRole, binaryRole, termRole] =
        .error (.contradiction message [2, 3] narrowed) ∧
      LastClash [termRole, termRole, binaryRole, binaryRole, termRole] 2 := by
  constructor
  · obtain ⟨decided, unique, -⟩ := @decideRoles_regular
      [termRole, eitherRole, eitherRole, unaryRole, eitherRole, termRole] (by simp [Usable])
    have reading := (decided [termRole, binaryRole, unaryRole, unaryRole, unaryRole, termRole]).mp
      (by decide)
    exact fun roles => ⟨unique _ _ reading, fun same => same ▸ reading⟩
  · obtain ⟨-, -, failed⟩ := @decideRoles_regular
      [termRole, termRole, binaryRole, binaryRole, termRole] (by simp [Usable])
    have stops : decideRoles [termRole, termRole, binaryRole, binaryRole, termRole] =
        .error (.contradiction "an operator cannot be followed by an infix operator" [2, 3]
          [termRole, termRole, binaryRole, binaryRole, termRole]) := by
      decide
    obtain ⟨message, positions, narrowed, same, -, pair⟩ := failed _ stops
    cases same
    obtain ⟨position, same, last⟩ := pair (by decide) (by decide) (by decide) (by decide)
    cases same
    exact ⟨_, _, stops, last⟩

end PseudoLang.Precedence
