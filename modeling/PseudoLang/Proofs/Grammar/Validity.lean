import PseudoLang.Proofs.Grammar.Halting

/-!
Valid tables. Validation accepts exactly those in which every reference names a rule and the aliases
from every name lead to a rule that is none (`Table.validate_eq_ok`), in whatever order the rules
are listed. No evaluation finds a name in a valid table that it cannot resolve.
-/

namespace PseudoLang.Grammar

namespace Table

/-- Every reference inside a rule of the table names a rule of the table, and the aliases from every
name lead to a rule that is none. -/
structure Valid (table : Table) : Prop where
  known : ∀ entry ∈ table, ∀ name, entry.2.Contains (.reference name) → name ∈ table.names
  leads : ∀ name ∈ table.names, ∃ chain rule, table.Leads name chain rule

variable {table other : Table} {name : String} {rule : Rule}

/-! ## What validation accepts -/

theorem lookup_isNone_iff : (table.lookup name).isNone = true ↔ name ∉ table.names := by
  rw [Option.isNone_iff_eq_none]
  constructor
  · intro unknown known
    obtain ⟨rule, found⟩ := lookup_of_mem_names known
    cases unknown.symm.trans found
  · intro unknown
    cases found : table.lookup name with
    | none => rfl
    | some rule => exact absurd (mem_names_of_lookup found) unknown

theorem unknownReference?_eq_none :
    table.unknownReference? rule = none ↔
      ∀ name, rule.Contains (.reference name) → name ∈ table.names := by
  unfold unknownReference?
  rw [List.find?_eq_none]
  refine forall_congr' fun name => ?_
  rw [Rule.mem_references, lookup_isNone_iff, not_not]

theorem checkRule_eq_ok :
    table.checkRule name rule = .ok () ↔
      (∀ other, rule.Contains (.reference other) → other ∈ table.names) ∧
      ∀ start, table.resolve name ≠ .error (.trivialCycle start) := by
  rw [← unknownReference?_eq_none]
  unfold checkRule
  split
  · rename_i unknown
    simp [unknown]
  · rename_i known
    split
    · rename_i start cycle
      simp [cycle]
    · rename_i plain
      simpa [known] using plain

/-- Validation accepts the valid tables and no others. -/
theorem validate_eq_ok : table.validate = .ok () ↔ table.Valid := by
  rw [validate, mapError_eq_ok, check, forM_eq_ok]
  constructor
  · intro checked
    have known : ∀ entry ∈ table, ∀ name, entry.2.Contains (.reference name) →
        name ∈ table.names := fun entry member => (checkRule_eq_ok.mp (checked entry member)).1
    refine ⟨known, fun name here => ?_⟩
    obtain ⟨rule, found⟩ := lookup_of_mem_names here
    cases resolved : table.resolve name with
    | ok result => exact ⟨_, _, resolve_eq_ok.mp resolved⟩
    | error cause =>
      -- The chain from `name` meets no unknown name, so that only a cycle could stop it.
      have aliases {name next : String} (found : table.lookup name = some (.reference next)) :
          next ∈ table.names := known _ (mem_of_lookup found) next (.self _)
      rw [follow_eq_error aliases here resolved] at resolved
      exact absurd resolved ((checkRule_eq_ok.mp (checked _ (mem_of_lookup found))).2 name)
  · rintro ⟨known, leads⟩ ⟨name, rule⟩ member
    refine checkRule_eq_ok.mpr ⟨known _ member, fun start cycle => ?_⟩
    obtain ⟨chain, last, leads⟩ := leads name (List.mem_map_of_mem member)
    cases cycle.symm.trans (resolve_eq_ok.mpr leads)

/-! ## The order of the rules -/

theorem lookup_of_perm (same : table.Perm other) (unique : table.names.Nodup)
    (found : table.lookup name = some rule) : other.lookup name = some rule :=
  lookup_of_nodup ((same.map Prod.fst).nodup_iff.mp unique) (same.mem_iff.mp (mem_of_lookup found))

theorem Leads.perm {chain : List String} (h : table.Leads name chain rule)
    (same : table.Perm other) (unique : table.names.Nodup) : other.Leads name chain rule := by
  induction h with
  | ends found plain => exact .ends (lookup_of_perm same unique found) plain
  | step found _ ih => exact .step (lookup_of_perm same unique found) ih

theorem Valid.perm (h : table.Valid) (same : table.Perm other) (unique : table.names.Nodup) :
    other.Valid := by
  have names {name : String} : name ∈ table.names ↔ name ∈ other.names :=
    (same.map Prod.fst).mem_iff
  constructor
  · intro entry member name inside
    exact names.mp (h.known entry (same.mem_iff.mpr member) name inside)
  · intro name here
    obtain ⟨chain, rule, leads⟩ := h.leads name (names.mpr here)
    exact ⟨chain, rule, leads.perm same unique⟩

/-! ## Evaluation over a valid table -/

/-- Every reference inside the rule names a rule of the table. -/
def Knows (table : Table) (rule : Rule) : Prop :=
  ∀ name, rule.Contains (.reference name) → name ∈ table.names

theorem Valid.closed (h : table.Valid) : Closed table [] table.Knows where
  part knows inside name contains := knows name (.part inside contains)
  token _ := List.not_mem_nil
  reference _ resolved := by
    obtain ⟨last, member⟩ := (resolve_eq_ok.mp resolved).mem
    exact h.known _ member

theorem Valid.resolve_ne_error (h : table.Valid) (knows : table.Knows (.reference name))
    (cause : Cause) : table.resolve name ≠ .error cause := by
  obtain ⟨chain, rule, leads⟩ := h.leads name (knows name (.self _))
  rw [resolve_eq_ok.mpr leads]
  exact nofun

end Table

/-- The table is not at fault: a name that cannot be resolved is not what ended the parse. -/
def SparesNames : Halt → Prop
  | .error error =>
    (∀ name, error.cause ≠ .unknownRule name) ∧ ∀ name, error.cause ≠ .trivialCycle name
  | .endless => True

theorem permits_sparesNames {p : Parser} (valid : p.table.Valid) :
    p.Permits p.table.Knows SparesNames where
  tooDeep _ := ⟨nofun, nofun⟩
  syntaxError _ _ _ := ⟨nofun, nofun⟩
  unresolved knows failed := absurd failed (valid.resolve_ne_error knows _)
  unknownFilter _ _ _ := ⟨nofun, nofun⟩
  filtered failed _ := by
    obtain rfl | ⟨message, positions, masks, rfl, -⟩ := Filter.precedence_eq_error failed
    · exact ⟨nofun, nofun⟩
    · exact ⟨nofun, nofun⟩
  endless := .inl trivial

/-- Validation accepts a table exactly if it is valid. It does not matter for that in which order
the rules stand, if every name has one rule. From a name of a table that is accepted, no parse of
any tokens, from any cursor and context, comes to a name without a rule or to a cycle of aliases. -/
theorem Table.validate_sound_complete (table : Table) :
    (table.validate = .ok () ↔ table.Valid) ∧
    (table.names.Nodup → ∀ other : Table, table.Perm other →
      (table.validate = .ok () ↔ other.validate = .ok ())) ∧
    (table.validate = .ok () → ∀ p : Parser, p.table = table → ∀ name ∈ table.names,
      ∀ cursor context error,
        ((p.parseRule cursor name).runFrom context).1 = .error (.error error) →
        (∀ rule, error.cause ≠ .unknownRule rule) ∧ ∀ rule, error.cause ≠ .trivialCycle rule) := by
  refine ⟨validate_eq_ok, ?_, ?_⟩
  · intro unique other same
    rw [validate_eq_ok, validate_eq_ok]
    constructor
    · exact fun valid => valid.perm same unique
    · exact fun valid => valid.perm same.symm ((same.map Prod.fst).nodup_iff.mp unique)
  · rintro accepted p rfl name here cursor context error ended
    have valid := validate_eq_ok.mp accepted
    have knows : p.table.Knows (.reference name) := by
      rintro other (_ | ⟨inside, -⟩)
      · exact here
      · cases inside
    have spares := Parser.haltsAs_evaluate (permits_sparesNames valid) valid.closed knows cursor
      context
    rw [Parser.parseRule] at ended
    rw [ended] at spares
    exact spares

/-- An alias and the rule that it leads to, accepted in either order. -/
theorem Table.validate_sound_complete_alias :
    Table.Valid [("item", .reference "word"), ("word", .token "name" none)] ∧
    Table.validate [("word", .token "name" none), ("item", .reference "word")] = .ok () := by
  have accepted : Table.validate [("item", .reference "word"), ("word", .token "name" none)] =
      .ok () := rfl
  obtain ⟨valid, order, -⟩ := validate_sound_complete
    [("item", .reference "word"), ("word", .token "name" none)]
  exact ⟨valid.mp accepted, (order (by decide) _ (.swap _ _ _)).mp accepted⟩

/-- The aliases from `outer` come to a cycle that `outer` is not part of. -/
example : Table.validate [("outer", .reference "inner"), ("inner", .reference "inner")] =
    .error (.nowhere (.trivialCycle "outer")) := rfl

end PseudoLang.Grammar
