import PseudoLang.FrontEnd
import PseudoLang.Proofs.Grammar.Termination
import PseudoLang.Proofs.Grammar.Validity

/-!
The grammar of the language is sound: no tokens lead a parse to a fault of the grammar itself or of
the resolution of operators, or round a loop for ever. A parse of any tokens, also of such as no
source has, ends with a tree or with a fault of the tokens (`parse_tree_or_fault`).
-/

namespace PseudoLang

open Grammar Grammar.Parser

/-- A fault of the tokens, and of nothing else: an unknown rule or filter, a cycle of aliases and an
incomplete association are faults of a grammar. -/
inductive Cause.OfTokens : Cause → Prop
  | syntaxError (message : String) (before after stack : List String) :
    OfTokens (.syntaxError message before after stack)
  | nestingTooDeep (limit : Nat) : OfTokens (.nestingTooDeep limit)
  | trailingInput (token : String) : OfTokens (.trailingInput token)
  | contradiction {message : String} (positions : List Nat) (masks : List UInt8) :
    Precedence.Unreadable message → OfTokens (.contradiction message positions masks)

/-- A parse that ends with a fault of the tokens. -/
def Grammar.Halt.OfTokens (halt : Halt) : Prop :=
  ∃ error : Error, halt = .error error ∧ error.cause.OfTokens

namespace Grammar

/-- A filter that exists, and lists with tokens between their elements. -/
def Rule.sound : Rule → Bool
  | .filter name _ => (Filter.named? name).isSome
  | rule => rule.tokenSeparated

/-- Rules that are sound all through and refer to nothing but rules of the table. -/
def Table.Sound (table : Table) (rule : Rule) : Prop :=
  rule.everywhere Rule.sound = true ∧ table.Knows rule

theorem Table.closed_sound {table : Table} (valid : table.Valid)
    (sound : ∀ entry ∈ table, entry.2.everywhere Rule.sound = true) :
    Closed table [] table.Sound where
  part h inside := ⟨(closed_everywhere sound).part h.1 inside, valid.closed.part h.2 inside⟩
  token _ := List.not_mem_nil
  reference h resolved :=
    ⟨(closed_everywhere sound).reference h.1 resolved, valid.closed.reference h.2 resolved⟩

theorem permits_ofTokens {p : Parser} (valid : p.table.Valid) :
    p.Permits p.table.Sound Halt.OfTokens where
  tooDeep _ := ⟨_, rfl, .nestingTooDeep maxDepth⟩
  syntaxError _ _ _ := ⟨_, rfl, .syntaxError _ _ _ _⟩
  unresolved h failed := absurd failed (valid.resolve_ne_error h.2 _)
  unknownFilter h unknown := by
    have known := (Rule.everywhere_iff.mp h.1).1
    rw [Rule.sound, unknown] at known
    cases known
  filtered failed _ := by
    obtain rfl | ⟨message, positions, masks, rfl, unreadable⟩ := Filter.precedence_eq_error failed
    · exact ⟨_, rfl, .nestingTooDeep _⟩
    · exact ⟨_, rfl, .contradiction positions masks unreadable⟩
  endless := by
    right
    intro rule h
    apply listAdvances_of_tokenSeparated
    have sound := (Rule.everywhere_iff.mp h.1).1
    cases rule with
    | filter name rule => rfl
    | _ => exact sound

namespace Language

theorem table_valid : Table.Valid table := by
  apply Table.validate_eq_ok.mp
  decide +kernel

theorem table_sound : ∀ entry ∈ table, entry.2.everywhere Rule.sound = true := by decide +kernel

end Language

end Grammar

/-- An expression in the tokens is at fault only if it cannot be read. It is never empty, and each
of its elements fits the role that has been decided for it. -/
theorem Cause.OfTokens.not_internal {cause : Cause} (h : cause.OfTokens) (positions : List Nat)
    (masks : List UInt8) :
    cause ≠ .contradiction "empty expression" positions masks ∧
    cause ≠ .contradiction "inconsistent classification" positions masks := by
  cases h with
  | contradiction _ _ unreadable =>
    obtain ⟨empty, inconsistent⟩ := unreadable.not_internal
    simp [empty, inconsistent]
  | _ => exact ⟨nofun, nofun⟩

/-- A parse of any tokens comes to an end, with a tree or with a fault of the tokens. -/
theorem parse_tree_or_fault (tokens : Array Token) (file : String) :
    (∃ tree, parse tokens file = .ok tree) ∨
    ∃ error : Error, parse tokens file = .error (.error error) ∧ error.cause.OfTokens ∧
      ∀ positions masks,
        error.cause ≠ .contradiction "empty expression" positions masks ∧
        error.cause ≠ .contradiction "inconsistent classification" positions masks := by
  suffices h : (∃ tree, parse tokens file = .ok tree) ∨
      ∃ error : Error, parse tokens file = .error (.error error) ∧ error.cause.OfTokens by
    obtain tree | ⟨error, ended, fault⟩ := h
    · exact .inl tree
    · exact .inr ⟨error, ended, fault, fault.not_internal⟩
  have start : Language.table.Sound (.reference "file") := by
    constructor
    · rfl
    · rintro name (_ | ⟨inside, -⟩)
      · decide
      · cases inside
  have halts := haltsAs_evaluate (p := languageParser tokens file)
    (permits_ofTokens Language.table_valid)
    (Table.closed_sound Language.table_valid Language.table_sound) start 0 .initial
  unfold parse parseFile parseRule
  generalize Parse.runFrom _ _ = outcome at halts ⊢
  obtain ⟨halt | result, after⟩ := outcome
  · obtain ⟨error, rfl, fault⟩ := halts
    exact .inr ⟨error, rfl, fault⟩
  · dsimp only
    split
    · split
      · exact .inl ⟨_, rfl⟩
      · exact .inr ⟨_, rfl, .trailingInput _⟩
    · exact .inl ⟨_, rfl⟩

end PseudoLang
