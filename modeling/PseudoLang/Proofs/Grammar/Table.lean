import Mathlib.Data.List.Nodup
import Mathlib.Data.List.Perm.Subperm
import PseudoLang.Grammar.Table
import PseudoLang.Proofs.Outcome

/-!
Names and the rules that they lead to. Resolving a name follows its chain of plain aliases for at
most one name more than the table has; that is enough for every chain that ends, because no name
comes twice on it (`Table.resolve_eq_ok`).
-/

namespace PseudoLang.Grammar

theorem lookup_of_nodup {α : Type} {entries : List (String × α)} {name : String} {value : α}
    (nodup : (entries.map Prod.fst).Nodup) (member : (name, value) ∈ entries) :
    entries.lookup name = some value := by
  induction entries with
  | nil => cases member
  | cons entry entries ih =>
    obtain ⟨fresh, nodup⟩ := List.nodup_cons.mp nodup
    obtain rfl | member := List.mem_cons.mp member
    · exact List.lookup_cons_self
    · have other : name ≠ entry.1 := by
        rintro rfl
        exact fresh (List.mem_map.mpr ⟨_, member, rfl⟩)
      rw [List.lookup_cons, beq_false_of_ne other]
      exact ih nodup member

theorem mem_of_lookup {α : Type} {entries : List (String × α)} {name : String} {value : α}
    (found : entries.lookup name = some value) : (name, value) ∈ entries := by
  obtain ⟨before, after, rfl, -⟩ := List.lookup_eq_some_iff.mp found
  simp

namespace Table

/-- The names that a table has rules for. -/
def names (table : Table) : List String := table.map Prod.fst

/-- The aliases from `name` on lead to a rule that is none. The chain holds the names on the way,
with `name` as the first. -/
inductive Leads (table : Table) : String → List String → Rule → Prop
  | ends {name : String} {rule : Rule} :
    table.lookup name = some rule → (∀ next, rule ≠ .reference next) →
    Leads table name [name] rule
  | step {name next : String} {chain : List String} {rule : Rule} :
    table.lookup name = some (.reference next) → Leads table next chain rule →
    Leads table name (name :: chain) rule

variable {table : Table} {name start : String} {chain : List String} {rule : Rule}

theorem mem_names_of_lookup (found : table.lookup name = some rule) : name ∈ table.names :=
  List.mem_map.mpr ⟨_, mem_of_lookup found, rfl⟩

theorem lookup_of_mem_names (known : name ∈ table.names) :
    ∃ rule, table.lookup name = some rule := by
  cases found : table.lookup name with
  | some rule => exact ⟨rule, rfl⟩
  | none =>
    obtain ⟨entry, member, same⟩ := List.mem_map.mp known
    have other := List.lookup_eq_none_iff.mp found entry member
    simp [same] at other

namespace Leads

theorem unique (h : table.Leads name chain rule) :
    ∀ {chain' : List String} {rule' : Rule}, table.Leads name chain' rule' →
      chain' = chain ∧ rule' = rule := by
  induction h with
  | ends found plain =>
    intro chain' rule' other
    cases other with
    | ends found' _ =>
      cases found.symm.trans found'
      exact ⟨rfl, rfl⟩
    | step found' _ =>
      cases found.symm.trans found'
      exact absurd rfl (plain _)
  | step found _ ih =>
    intro chain' rule' other
    cases other with
    | ends found' plain =>
      cases found.symm.trans found'
      exact absurd rfl (plain _)
    | step found' other =>
      cases found.symm.trans found'
      obtain ⟨rfl, rfl⟩ := ih other
      exact ⟨rfl, rfl⟩

/-- From every name of a chain the rest of the chain leads on to the same rule. -/
theorem onward (h : table.Leads name chain rule) {other : String} (member : other ∈ chain) :
    ∃ rest, table.Leads other rest rule ∧ rest.length ≤ chain.length := by
  induction h with
  | ends found plain =>
    rw [List.mem_singleton.mp member]
    exact ⟨_, .ends found plain, Nat.le_refl _⟩
  | @step name next chain rule found leads ih =>
    obtain rfl | later := List.mem_cons.mp member
    · exact ⟨_, .step found leads, Nat.le_refl _⟩
    · obtain ⟨rest, onward, shorter⟩ := ih later
      exact ⟨rest, onward, Nat.le_succ_of_le shorter⟩

/-- A name that came again would lead over its own chain once more, and so on for ever. -/
theorem nodup (h : table.Leads name chain rule) : chain.Nodup := by
  induction h with
  | ends => exact List.nodup_singleton _
  | @step name next chain rule found leads ih =>
    refine List.nodup_cons.mpr ⟨?_, ih⟩
    intro again
    obtain ⟨rest, onward, shorter⟩ := leads.onward again
    obtain ⟨rfl, -⟩ := (Leads.step found leads).unique onward
    rw [List.length_cons] at shorter
    omega

theorem mem_names (h : table.Leads name chain rule) : ∀ other ∈ chain, other ∈ table.names := by
  induction h with
  | ends found _ => exact List.forall_mem_singleton.mpr (mem_names_of_lookup found)
  | step found _ ih => exact List.forall_mem_cons.mpr ⟨mem_names_of_lookup found, ih⟩

theorem length_le (h : table.Leads name chain rule) : chain.length ≤ table.length := by
  have fits : chain.Subperm table.names := List.subperm_of_subset h.nodup h.mem_names
  have := fits.length_le
  rwa [names, List.length_map] at this

/-- The rule at the end of a chain is one of the table. -/
theorem mem (h : table.Leads name chain rule) : ∃ last, (last, rule) ∈ table := by
  induction h with
  | ends found _ => exact ⟨_, mem_of_lookup found⟩
  | step _ _ ih => exact ih

end Leads

/-! ## Resolving names -/

theorem leads_of_follow {bound : Nat} :
    ∀ {name : String} {chain : List String} {rule : Rule},
      table.follow start bound name = .ok (chain, rule) → table.Leads name chain rule := by
  induction bound with
  | zero => exact fun h => nomatch h
  | succ bound ih =>
    intro name chain rule h
    unfold follow at h
    split at h
    · cases h
    · rename_i next found
      obtain ⟨⟨chain, rule⟩, followed, h⟩ := bind_eq_ok.mp h
      cases h
      exact .step found (ih followed)
    · rename_i plain found
      cases h
      exact .ends found plain

theorem follow_of_leads (h : table.Leads name chain rule) :
    ∀ {bound : Nat}, chain.length ≤ bound → table.follow start bound name = .ok (chain, rule) := by
  induction h with
  | @ends name rule found plain =>
    intro bound enough
    obtain ⟨bound, rfl⟩ := Nat.exists_eq_succ_of_ne_zero (Nat.ne_zero_of_lt enough)
    cases rule with
    | reference next => exact absurd rfl (plain next)
    | _ => simp only [follow, found]
  | step found _ ih =>
    intro bound enough
    obtain ⟨bound, rfl⟩ := Nat.exists_eq_succ_of_ne_zero (Nat.ne_zero_of_lt enough)
    simp only [follow, found, ih (Nat.le_of_succ_le_succ enough)]
    rfl

/-- A name resolves to the rule that it leads to, over its whole chain of aliases. -/
theorem resolve_eq_ok : table.resolve name = .ok (chain, rule) ↔ table.Leads name chain rule :=
  ⟨leads_of_follow, fun h => follow_of_leads h (Nat.le_succ_of_le h.length_le)⟩

/-- What cannot be resolved goes in a circle, or leads to a name that there is no rule for. -/
theorem follow_error_cases {bound : Nat} : ∀ {name : String} {cause : Cause},
    table.follow start bound name = .error cause →
      cause = .trivialCycle start ∨ ∃ missing, cause = .unknownRule missing := by
  induction bound with
  | zero =>
    rintro name cause ⟨⟩
    exact .inl rfl
  | succ bound ih =>
    intro name cause h
    unfold follow at h
    split at h
    · cases h
      exact .inr ⟨name, rfl⟩
    · rename_i next _
      cases followed : table.follow start bound next with
      | ok result =>
        rw [followed] at h
        cases h
      | error _ =>
        rw [followed] at h
        cases h
        exact ih followed
    · cases h

/-- Where every alias names a rule, a chain that does not end can only be endless. -/
theorem follow_eq_error (known : ∀ {name next : String},
      table.lookup name = some (.reference next) → next ∈ table.names) {bound : Nat} :
    ∀ {name : String} {cause : Cause}, name ∈ table.names →
      table.follow start bound name = .error cause → cause = .trivialCycle start := by
  induction bound with
  | zero =>
    rintro name cause _ ⟨⟩
    rfl
  | succ bound ih =>
    intro name cause here h
    obtain ⟨rule, found⟩ := lookup_of_mem_names here
    cases rule with
    | reference next =>
      simp only [follow, found] at h
      cases followed : table.follow start bound next with
      | error cause' =>
        rw [followed] at h
        cases h
        exact ih (known found) followed
      | ok result =>
        rw [followed] at h
        cases h
    | _ =>
      simp only [follow, found] at h
      cases h

end Table

end PseudoLang.Grammar
