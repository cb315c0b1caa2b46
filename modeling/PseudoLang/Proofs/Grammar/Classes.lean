import PseudoLang.Proofs.Grammar.Table

/-!
Classes of rules that are closed under what the rules refer to: an evaluation of a rule of the class
evaluates no other ones. The rules that match no token of some kinds are such a class
(`closed_avoids`).
-/

namespace PseudoLang.Grammar

/-- The rules right inside a rule. -/
def Rule.parts : Rule → List Rule
  | .reference _ | .token .. => []
  | .filter _ rule | .optional rule | .many rule | .required rule _ => [rule]
  | .cycle rules | .sequence rules _ => rules
  | .split primary secondary _ => [primary, secondary]
  | .delimited left right separator element _ => left :: right :: element :: separator.toList
  | .choice alternatives _ => alternatives.map Prod.snd
  | .pair left separator right => [left, separator, right]

/-- A class of rules that holds the rules inside its rules, and none that matches a token of the
given kinds. -/
structure Closed (table : Table) (barrier : List String) (within : Rule → Prop) : Prop where
  part : ∀ {rule part : Rule}, within rule → part ∈ rule.parts → within part
  token : ∀ {kind : String} {error : Option String},
    within (.token kind error) → kind ∉ barrier
  reference : ∀ {name : String} {chain : List String} {rule : Rule},
    within (.reference name) → table.resolve name = .ok (chain, rule) → within rule

theorem closed_true (table : Table) : Closed table [] (fun _ => True) where
  part _ _ := trivial
  token _ := List.not_mem_nil
  reference _ _ := trivial

namespace Rule

variable (names kinds : List String)

mutual

/-- The rule refers to none of these names and matches no token of these kinds. -/
def avoids : Rule → Bool
  | reference name => name ∉ names
  | token kind _ => kind ∉ kinds
  | filter _ rule | optional rule | many rule | required rule _ => avoids rule
  | cycle rules | sequence rules _ => avoidsAll rules
  | split primary secondary _ => avoids primary && avoids secondary
  | delimited left right separator element _ =>
    avoids left && avoids right && avoids element && avoidsPart separator
  | choice alternatives _ => avoidsAlternatives alternatives
  | pair left separator right => avoids left && avoids separator && avoids right

def avoidsAll : List Rule → Bool
  | [] => true
  | rule :: rules => avoids rule && avoidsAll rules

def avoidsPart : Option Rule → Bool
  | none => true
  | some rule => avoids rule

def avoidsAlternatives : List (String × Rule) → Bool
  | [] => true
  | (_, rule) :: alternatives => avoids rule && avoidsAlternatives alternatives

end

variable {names kinds}

theorem avoidsAll_iff {rules : List Rule} :
    avoidsAll names kinds rules = true ↔ ∀ rule ∈ rules, rule.avoids names kinds = true := by
  induction rules with
  | nil => simp [avoidsAll]
  | cons rule rules ih => rw [avoidsAll, Bool.and_eq_true, ih, List.forall_mem_cons]

theorem avoidsAlternatives_iff {alternatives : List (String × Rule)} :
    avoidsAlternatives names kinds alternatives = true ↔
      ∀ alternative ∈ alternatives, alternative.2.avoids names kinds = true := by
  induction alternatives with
  | nil => simp [avoidsAlternatives]
  | cons alternative alternatives ih =>
    rw [avoidsAlternatives, Bool.and_eq_true, ih, List.forall_mem_cons]

theorem avoids_part {rule part : Rule} (h : rule.avoids names kinds = true)
    (member : part ∈ rule.parts) : part.avoids names kinds = true := by
  cases rule with
  | reference name => cases member
  | token kind error => cases member
  | cycle rules => exact avoidsAll_iff.mp h part member
  | sequence rules error => exact avoidsAll_iff.mp h part member
  | choice alternatives error =>
    obtain ⟨alternative, inside, rfl⟩ := List.mem_map.mp member
    exact avoidsAlternatives_iff.mp h alternative inside
  | delimited left right separator element error =>
    cases separator <;> simp [avoids, avoidsPart, parts] at h member <;> grind
  | _ =>
    simp [avoids, parts] at h member
    grind

end Rule

/-- The rules that avoid some names and kinds are a class, if those of the table do so that do not
go by one of the names. -/
theorem closed_avoids {table : Table} {names kinds : List String}
    (h : ∀ entry ∈ table, entry.1 ∉ names → entry.2.avoids names kinds = true) :
    Closed table kinds (fun rule => rule.avoids names kinds = true) := by
  have leads {name : String} {chain : List String} {rule : Rule}
      (h' : table.Leads name chain rule) : name ∉ names → rule.avoids names kinds = true := by
    induction h' with
    | ends found _ => exact h _ (mem_of_lookup found)
    | step found _ ih =>
      intro other
      have inside := h _ (mem_of_lookup found) other
      exact ih (by simpa [Rule.avoids] using inside)
  constructor
  case part => exact Rule.avoids_part
  case token =>
    intro kind error free
    simpa [Rule.avoids] using free
  case reference =>
    intro name chain rule free resolved
    exact leads (Table.resolve_eq_ok.mp resolved) (by simpa [Rule.avoids] using free)

/-- Rules of the class, and rules that end with a token after the rules of the class inside them. -/
inductive Closing (table : Table) (within : Rule → Prop) : Rule → Prop
  | inner {rule : Rule} : within rule → Closing table within rule
  | token (kind : String) (error : Option String) : Closing table within (.token kind error)
  | reference {name : String} {chain : List String} {rule : Rule} :
    table.resolve name = .ok (chain, rule) → Closing table within rule →
    Closing table within (.reference name)
  | sequence {rules : List Rule} {last : Rule} {error : Option String} :
    (∀ rule ∈ rules, within rule) → Closing table within last →
    Closing table within (.sequence (rules ++ [last]) error)
  | choice {alternatives : List (String × Rule)} {error : Option String} :
    (∀ alternative ∈ alternatives, Closing table within alternative.2) →
    Closing table within (.choice alternatives error)

end PseudoLang.Grammar
