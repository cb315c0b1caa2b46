import PseudoLang.Proofs.Grammar.Classes

/-!
Where rules occur: inside each other (`Rule.Contains`), and in the evaluation of each other
(`Table.Reaches`). The names that a rule refers to are those of the references inside it
(`Rule.mem_references`). What a check says of every rule inside the rules of a table, it says of
every rule that is reached from them (`closed_everywhere`).
-/

namespace PseudoLang.Grammar

namespace Rule

variable {rule part : Rule}

theorem sizeOf_part (h : part ∈ rule.parts) : sizeOf part < sizeOf rule := by
  cases rule with
  | reference name => cases h
  | token kind error => cases h
  | cycle rules =>
    have := List.sizeOf_lt_of_mem (show part ∈ rules from h)
    simp only [cycle.sizeOf_spec]
    omega
  | sequence rules error =>
    have := List.sizeOf_lt_of_mem (show part ∈ rules from h)
    simp only [sequence.sizeOf_spec]
    omega
  | choice alternatives error =>
    obtain ⟨⟨tag, _⟩, inside, rfl⟩ := List.mem_map.mp h
    have := List.sizeOf_lt_of_mem inside
    simp only [choice.sizeOf_spec, Prod.mk.sizeOf_spec] at *
    omega
  | delimited left right separator element error =>
    cases separator <;> simp [parts] at h <;> grind [delimited.sizeOf_spec, Option.some.sizeOf_spec]
  | _ =>
    simp [parts] at h
    grind [filter.sizeOf_spec, optional.sizeOf_spec, many.sizeOf_spec, split.sizeOf_spec,
      required.sizeOf_spec, pair.sizeOf_spec]

/-- What holds of a rule whenever it holds of the rules right inside it, holds of every rule. -/
theorem induction_parts {P : Rule → Prop} (h : ∀ rule, (∀ part ∈ rule.parts, P part) → P rule)
    (rule : Rule) : P rule :=
  h rule fun part _ => induction_parts h part
termination_by sizeOf rule
decreasing_by exact sizeOf_part ‹_›

/-! ## Rules inside rules -/

/-- A rule that stands inside another one, or is that rule itself. -/
inductive Contains : Rule → Rule → Prop
  | self (rule : Rule) : Contains rule rule
  | part {rule part inner : Rule} :
    part ∈ rule.parts → Contains part inner → Contains rule inner

theorem mem_referencesOfAll {name : String} {rules : List Rule} :
    name ∈ referencesOfAll rules ↔ ∃ part ∈ rules, name ∈ part.references := by
  induction rules with
  | nil => simp [referencesOfAll]
  | cons rule rules ih => simp [referencesOfAll, ih]

theorem mem_referencesOfAlternatives {name : String} {alternatives : List (String × Rule)} :
    name ∈ referencesOfAlternatives alternatives ↔
      ∃ part ∈ alternatives.map Prod.snd, name ∈ part.references := by
  induction alternatives with
  | nil => simp [referencesOfAlternatives]
  | cons alternative alternatives ih => simp [referencesOfAlternatives, ih]

/-- The references of a rule are its own and those of the rules right inside it. -/
theorem mem_references_iff {name : String} :
    name ∈ rule.references ↔
      rule = .reference name ∨ ∃ part ∈ rule.parts, name ∈ part.references := by
  cases rule with
  | reference other => simp [references, parts, eq_comm]
  | cycle rules => simp [references, parts, mem_referencesOfAll]
  | sequence rules error => simp [references, parts, mem_referencesOfAll]
  | choice alternatives error =>
    rw [references, mem_referencesOfAlternatives]
    simp [parts]
  | delimited left right separator element error =>
    cases separator <;> simp [references, referencesOfPart, parts, or_comm]
  | _ => simp [references, parts]

/-- A rule refers to the names of the references that stand in it, and to no others. -/
theorem mem_references {name : String} :
    name ∈ rule.references ↔ rule.Contains (.reference name) := by
  constructor
  · induction rule using induction_parts with
    | h rule ih =>
      intro member
      obtain rfl | ⟨part, inside, member⟩ := mem_references_iff.mp member
      · exact .self _
      · exact .part inside (ih part inside member)
  · intro contains
    generalize same : Rule.reference name = inner at contains
    induction contains with
    | self => exact mem_references_iff.mpr (.inl same.symm)
    | part inside _ ih => exact mem_references_iff.mpr (.inr ⟨_, inside, ih same⟩)

/-! ## Checks of every rule inside a rule -/

section

variable (check : Rule → Bool)

mutual

/-- The check holds of the rule and of every rule inside it. -/
def everywhere : Rule → Bool
  | reference name => check (reference name)
  | token kind error => check (token kind error)
  | filter name rule => check (filter name rule) && everywhere rule
  | optional rule => check (optional rule) && everywhere rule
  | many rule => check (many rule) && everywhere rule
  | cycle rules => check (cycle rules) && everywhereInAll rules
  | split primary secondary error =>
    check (split primary secondary error) && everywhere primary && everywhere secondary
  | sequence rules error => check (sequence rules error) && everywhereInAll rules
  | delimited left right separator element error =>
    check (delimited left right separator element error) && everywhere left && everywhere right &&
      everywhere element && everywhereInPart separator
  | choice alternatives error =>
    check (choice alternatives error) && everywhereInAlternatives alternatives
  | required rule error => check (required rule error) && everywhere rule
  | pair left separator right =>
    check (pair left separator right) && everywhere left && everywhere separator &&
      everywhere right

def everywhereInAll : List Rule → Bool
  | [] => true
  | rule :: rules => everywhere rule && everywhereInAll rules

def everywhereInPart : Option Rule → Bool
  | none => true
  | some rule => everywhere rule

def everywhereInAlternatives : List (String × Rule) → Bool
  | [] => true
  | (_, rule) :: alternatives => everywhere rule && everywhereInAlternatives alternatives

end

end

variable {check : Rule → Bool}

theorem everywhereInAll_iff {rules : List Rule} :
    everywhereInAll check rules = true ↔ ∀ part ∈ rules, part.everywhere check = true := by
  induction rules with
  | nil => simp [everywhereInAll]
  | cons rule rules ih => rw [everywhereInAll, Bool.and_eq_true, ih, List.forall_mem_cons]

theorem everywhereInAlternatives_iff {alternatives : List (String × Rule)} :
    everywhereInAlternatives check alternatives = true ↔
      ∀ part ∈ alternatives.map Prod.snd, part.everywhere check = true := by
  induction alternatives with
  | nil => simp [everywhereInAlternatives]
  | cons alternative alternatives ih =>
    rw [everywhereInAlternatives, Bool.and_eq_true, ih, List.map_cons, List.forall_mem_cons]

theorem everywhere_iff :
    rule.everywhere check = true ↔
      check rule = true ∧ ∀ part ∈ rule.parts, part.everywhere check = true := by
  cases rule with
  | cycle rules => rw [everywhere, Bool.and_eq_true, everywhereInAll_iff, parts]
  | sequence rules error => rw [everywhere, Bool.and_eq_true, everywhereInAll_iff, parts]
  | choice alternatives error =>
    rw [everywhere, Bool.and_eq_true, everywhereInAlternatives_iff, parts]
  | delimited left right separator element error =>
    cases separator <;> simp [everywhere, everywhereInPart, parts, and_assoc]
  | _ => simp [everywhere, parts, and_assoc]

end Rule

/-! ## Rules that are reached -/

namespace Table

/-- A rule that an evaluation of `rule` may come to: it stands inside a rule that is reached, or a
reference that is reached leads to it. -/
inductive Reaches (table : Table) (rule : Rule) : Rule → Prop
  | self : Reaches table rule rule
  | part {outer inner : Rule} :
    Reaches table rule outer → inner ∈ outer.parts → Reaches table rule inner
  | reference {name : String} {chain : List String} {inner : Rule} :
    Reaches table rule (.reference name) → table.resolve name = .ok (chain, inner) →
    Reaches table rule inner

end Table

variable {table : Table}

theorem closed_reaches (rule : Rule) : Closed table [] (table.Reaches rule) where
  part reached inside := .part reached inside
  token _ := List.not_mem_nil
  reference reached resolved := .reference reached resolved

/-- A class of rules holds every rule that its rules reach. -/
theorem Closed.reaches {barrier : List String} {within : Rule → Prop}
    (closed : Closed table barrier within) {rule inner : Rule} (h : within rule)
    (reached : table.Reaches rule inner) : within inner := by
  induction reached with
  | self => exact h
  | part _ inside ih => exact closed.part ih inside
  | reference _ resolved ih => exact closed.reference ih resolved

/-- A check of all rules inside the rules of a table is a check of all rules that are reached. -/
theorem closed_everywhere {check : Rule → Bool}
    (h : ∀ entry ∈ table, entry.2.everywhere check = true) :
    Closed table [] (fun rule => rule.everywhere check = true) where
  part checked inside := (Rule.everywhere_iff.mp checked).2 _ inside
  token _ := List.not_mem_nil
  reference _ resolved := by
    obtain ⟨last, member⟩ := (Table.resolve_eq_ok.mp resolved).mem
    exact h _ member

end PseudoLang.Grammar
