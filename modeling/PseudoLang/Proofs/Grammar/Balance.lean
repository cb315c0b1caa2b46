import PseudoLang.Proofs.Grammar.Frontier

/-!
Balance: whether the tokens that a rule stands for close all that they open, and nothing else. The
delimiters of a balanced rule stand in one sequence of rules, or around the element of a delimited
rule, so that balance can be read off a grammar (`balancing_derives`).
-/

namespace PseudoLang

/-- Kinds of tokens that open something, and kinds that close it. -/
structure Delimiters where
  opening : List String
  closing : List String

namespace Delimiters

variable (delimiters : Delimiters)

/-- How much is open after a token. A closing token too many is ignored. -/
def count (depth : Nat) (kind : String) : Nat :=
  if kind ∈ delimiters.opening then depth + 1
  else if kind ∈ delimiters.closing then depth - 1
  else depth

/-- How much is open after some tokens. -/
def level (depth : Nat) (terminals : List Terminal) : Nat :=
  terminals.foldl (fun depth terminal => delimiters.count depth terminal.1) depth

/-- What is open before the tokens, and nothing else, is open after them. -/
def Balances (terminals : List Terminal) : Prop := ∀ depth, delimiters.level depth terminals = depth

/-- Kinds that open something close nothing. -/
def Apart : Prop := ∀ kind ∈ delimiters.closing, kind ∉ delimiters.opening

instance : Decidable delimiters.Apart :=
  inferInstanceAs (Decidable (∀ kind ∈ delimiters.closing, _))

variable {delimiters} {first rest : List Terminal}

@[simp] theorem level_nil (depth : Nat) : delimiters.level depth [] = depth := rfl

@[simp] theorem level_cons (depth : Nat) (terminal : Terminal) :
    delimiters.level depth (terminal :: rest) =
      delimiters.level (delimiters.count depth terminal.1) rest := rfl

@[simp] theorem level_append (depth : Nat) :
    delimiters.level depth (first ++ rest) =
      delimiters.level (delimiters.level depth first) rest :=
  List.foldl_append

theorem balances_nil : delimiters.Balances [] := level_nil

theorem Balances.append (hf : delimiters.Balances first) (hr : delimiters.Balances rest) :
    delimiters.Balances (first ++ rest) := by
  intro depth
  rw [level_append, hf, hr]

theorem count_of_opening {depth : Nat} {kind : String} (h : kind ∈ delimiters.opening) :
    delimiters.count depth kind = depth + 1 := if_pos h

theorem count_of_closing {depth : Nat} {kind : String} (apart : delimiters.Apart)
    (h : kind ∈ delimiters.closing) : delimiters.count depth kind = depth - 1 := by
  rw [count, if_neg (apart kind h), if_pos h]

theorem count_of_other {depth : Nat} {kind : String} (ho : kind ∉ delimiters.opening)
    (hc : kind ∉ delimiters.closing) : delimiters.count depth kind = depth := by
  rw [count, if_neg ho, if_neg hc]

/-- With enough open before, every closing token counts. -/
theorem level_countP (apart : delimiters.Apart) (terminals : List Terminal) (depth : Nat) :
    delimiters.level (terminals.countP (·.1 ∈ delimiters.closing) + depth) terminals =
      terminals.countP (·.1 ∈ delimiters.opening) + depth := by
  induction terminals generalizing depth with
  | nil => rfl
  | cons terminal rest ih =>
    by_cases closes : terminal.1 ∈ delimiters.closing
    · have keeps : terminal.1 ∉ delimiters.opening := apart _ closes
      rw [List.countP_cons_of_pos (by simp [closes]), List.countP_cons_of_neg (by simp [keeps]),
        level_cons, count_of_closing apart closes, Nat.add_right_comm, Nat.add_sub_cancel, ih]
    · rw [List.countP_cons_of_neg (by simp [closes]), level_cons]
      by_cases opens : terminal.1 ∈ delimiters.opening
      · rw [List.countP_cons_of_pos (by simp [opens]), count_of_opening opens, Nat.add_assoc, ih,
          Nat.add_right_comm, Nat.add_assoc]
      · rw [List.countP_cons_of_neg (by simp [opens]), count_of_other opens closes, ih]

/-- As much is closed as is opened. -/
theorem Balances.countP_eq {terminals : List Terminal} (h : delimiters.Balances terminals)
    (apart : delimiters.Apart) :
    terminals.countP (·.1 ∈ delimiters.closing) = terminals.countP (·.1 ∈ delimiters.opening) := by
  have counted := level_countP apart terminals 0
  rw [h] at counted
  exact counted

end Delimiters

namespace Grammar

/-! ## Balanced rules -/

namespace Rule

variable (delimiters : Delimiters)

/-- A token that opens something. -/
def opens : Rule → Bool
  | token kind _ => kind ∈ delimiters.opening
  | _ => false

/-- A token that closes something. -/
def closes : Rule → Bool
  | token kind _ => kind ∈ delimiters.closing
  | _ => false

mutual

/-- Whether a rule closes all that it opens, if the rules that it refers to do. -/
def balanced : Rule → Bool
  | reference _ => true
  | token kind _ => kind ∉ delimiters.opening && kind ∉ delimiters.closing
  | filter _ rule | optional rule | many rule | required rule _ => balanced rule
  | cycle rules | sequence rules _ => balancedFrom 0 rules
  | split primary secondary _ => balanced primary && balanced secondary
  | delimited left right separator element _ =>
    (opens delimiters left && closes delimiters right || balanced left && balanced right) &&
      balancedPart separator && balanced element
  | choice alternatives _ => balancedAlternatives alternatives
  | pair left separator right => balanced left && balanced separator && balanced right

/-- Whether a sequence of rules closes all that it opens, and as much more as `depth` says. -/
def balancedFrom (depth : Nat) : List Rule → Bool
  | [] => depth == 0
  | rule :: rules =>
    if opens delimiters rule then balancedFrom (depth + 1) rules
    else if closes delimiters rule then 0 < depth && balancedFrom (depth - 1) rules
    else balanced rule && balancedFrom depth rules

def balancedPart : Option Rule → Bool
  | none => true
  | some rule => balanced rule

def balancedAlternatives : List (String × Rule) → Bool
  | [] => true
  | (_, rule) :: alternatives => balanced rule && balancedAlternatives alternatives

end

end Rule

/-- Every rule of the table is balanced. -/
def Table.Balanced (table : Table) (delimiters : Delimiters) : Prop :=
  ∀ entry ∈ table, entry.2.balanced delimiters = true

instance (table : Table) (delimiters : Delimiters) : Decidable (table.Balanced delimiters) :=
  inferInstanceAs (Decidable (∀ entry ∈ table, _))

section

variable {delimiters : Delimiters}

/-- The tokens of balanced rules are balanced, and a rule that opens or closes something is the
token that does so. -/
structure Balancing (delimiters : Delimiters) (inner : Derivation) : Prop where
  balances : ∀ {rule : Rule} {terminals : List Terminal} {tree : SyntaxTree},
    rule.balanced delimiters = true → inner rule terminals tree → delimiters.Balances terminals
  token : ∀ {kind : String} {error : Option String} {terminals : List Terminal} {tree : SyntaxTree},
    inner (.token kind error) terminals tree → ∃ value, terminals = [(kind, value)]

variable {inner : Derivation} (hi : Balancing delimiters inner)

include hi

theorem Balancing.level_opens {rule : Rule} {terminals : List Terminal} {tree : SyntaxTree}
    (h : rule.opens delimiters = true) (derived : inner rule terminals tree) (depth : Nat) :
    delimiters.level depth terminals = depth + 1 := by
  cases rule with
  | token kind error =>
    have opens : kind ∈ delimiters.opening := of_decide_eq_true h
    obtain ⟨value, rfl⟩ := hi.token derived
    exact Delimiters.count_of_opening opens
  | _ => cases h

theorem Balancing.level_closes (apart : delimiters.Apart) {rule : Rule}
    {terminals : List Terminal} {tree : SyntaxTree} (h : rule.closes delimiters = true)
    (derived : inner rule terminals tree) (depth : Nat) :
    delimiters.level depth terminals = depth - 1 := by
  cases rule with
  | token kind error =>
    have closes : kind ∈ delimiters.closing := of_decide_eq_true h
    obtain ⟨value, rfl⟩ := hi.token derived
    exact Delimiters.count_of_closing apart closes
  | _ => cases h

theorem Balancing.inTurn (apart : delimiters.Apart) {rules : List Rule}
    {terminals : List Terminal} {trees : List SyntaxTree} (h : InTurn inner rules terminals trees) :
    ∀ depth, Rule.balancedFrom delimiters depth rules = true →
      ∀ base, delimiters.level (base + depth) terminals = base := by
  induction h with
  | nil =>
    intro depth balanced base
    rw [Rule.balancedFrom, beq_iff_eq] at balanced
    rw [balanced]
    rfl
  | @cons rule rules first rest tree trees derived _ ih =>
    intro depth balanced base
    rw [Rule.balancedFrom] at balanced
    rw [Delimiters.level_append]
    split at balanced
    · rename_i opens
      rw [hi.level_opens opens derived]
      exact ih (depth + 1) balanced base
    · split at balanced
      · rename_i closes
        obtain ⟨positive, balanced⟩ := (Bool.and_eq_true _ _).mp balanced
        have positive : 0 < depth := of_decide_eq_true positive
        rw [hi.level_closes apart closes derived, Nat.add_sub_assoc positive]
        exact ih (depth - 1) balanced base
      · obtain ⟨here, balanced⟩ := (Bool.and_eq_true _ _).mp balanced
        rw [hi.balances here derived]
        exact ih depth balanced base

omit hi in
theorem balances_repeated {round : List Terminal → List SyntaxTree → Prop}
    {terminals : List Terminal} {trees : List SyntaxTree}
    (hr : ∀ terminals trees, round terminals trees → delimiters.Balances terminals)
    (h : Repeated round terminals trees) : delimiters.Balances terminals := by
  induction h with
  | nil => exact Delimiters.balances_nil
  | cons one _ ih => exact (hr _ _ one).append ih

theorem Balancing.following {keep : Bool} {before rule : Rule}
    (hb : before.balanced delimiters = true) (hr : rule.balanced delimiters = true)
    (terminals : List Terminal) (trees : List SyntaxTree)
    (h : Following inner keep before rule terminals trees) : delimiters.Balances terminals := by
  obtain ⟨first, rest, left, right, rfl, -, hl, hd⟩ := h
  exact (hi.balances hb hl).append (hi.balances hr hd)

theorem Balancing.content {separator : Option Rule} {element : Rule}
    {terminals : List Terminal} {tree : SyntaxTree}
    (hs : Rule.balancedPart delimiters separator = true) (he : element.balanced delimiters = true)
    (h : Content inner separator element terminals tree) : delimiters.Balances terminals := by
  cases separator with
  | none => exact hi.balances he h
  | some separator =>
    obtain ⟨rfl, -⟩ | ⟨first, rest, value, more, rfl, -, derived, rounds⟩ := h
    · exact Delimiters.balances_nil
    · exact (hi.balances he derived).append (balances_repeated (hi.following hs he) rounds)

omit hi in
theorem balanced_of_mem {alternatives : List (String × Rule)} {tag : String} {rule : Rule}
    (h : Rule.balancedAlternatives delimiters alternatives = true)
    (member : (tag, rule) ∈ alternatives) : rule.balanced delimiters = true := by
  induction alternatives with
  | nil => cases member
  | cons alternative alternatives ih =>
    obtain ⟨here, rest⟩ := (Bool.and_eq_true _ _).mp h
    obtain rfl | member := List.mem_cons.mp member
    · exact here
    · exact ih rest member

theorem Balancing.delimited (apart : delimiters.Apart) {left right element : Rule}
    {separator : Option Rule} {error : Option String} {terminals : List Terminal}
    {tree : SyntaxTree}
    (h : (Rule.delimited left right separator element error).balanced delimiters = true)
    (derived : ∃ opening content closing before after, terminals = opening ++ content ++ closing ∧
      inner left opening before ∧ Content inner separator element content tree ∧
      inner right closing after) : delimiters.Balances terminals := by
  obtain ⟨opening, content, closing, before, after, rfl, hl, hc, hr⟩ := derived
  rw [Rule.balanced, Bool.and_eq_true, Bool.and_eq_true, Bool.or_eq_true, Bool.and_eq_true,
    Bool.and_eq_true] at h
  obtain ⟨⟨ends, hs⟩, he⟩ := h
  have inside := hi.content hs he hc
  obtain ⟨opens, closes⟩ | ⟨hbl, hbr⟩ := ends
  · intro depth
    rw [Delimiters.level_append, Delimiters.level_append, hi.level_opens opens hl, inside,
      hi.level_closes apart closes hr, Nat.add_sub_cancel]
  · exact ((hi.balances hbl hl).append inside).append (hi.balances hbr hr)

theorem Balancing.derivesRule {table : Table} (balanced : table.Balanced delimiters)
    (apart : delimiters.Apart) : Balancing delimiters (DerivesRule table inner) := by
  constructor
  case token =>
    rintro kind error terminals tree ⟨value, rfl, -⟩
    exact ⟨value, rfl⟩
  intro rule terminals tree h derived
  cases rule with
  | reference name =>
    obtain ⟨chain, rule, resolved, derived⟩ := derived
    obtain ⟨last, member⟩ := (Table.resolve_eq_ok.mp resolved).mem
    exact hi.balances (balanced _ member) derived
  | token kind error =>
    obtain ⟨value, rfl, -⟩ := derived
    obtain ⟨ho, hc⟩ : kind ∉ delimiters.opening ∧ kind ∉ delimiters.closing := by
      simpa [Rule.balanced] using h
    intro depth
    exact Delimiters.count_of_other ho hc
  | filter name rule =>
    rw [Rule.balanced] at h
    obtain ⟨_, _, -, -, derived⟩ := derived
    exact hi.balances h derived
  | optional rule =>
    rw [Rule.balanced] at h
    obtain ⟨rfl, -⟩ | ⟨value, -, derived⟩ := derived
    · exact Delimiters.balances_nil
    · exact hi.balances h derived
  | many rule =>
    rw [Rule.balanced] at h
    obtain ⟨trees, -, rounds⟩ := derived
    refine balances_repeated (fun terminals trees one => ?_) rounds
    obtain ⟨_, -, derived⟩ := one
    exact hi.balances h derived
  | cycle rules =>
    obtain ⟨trees, -, rounds⟩ := derived
    exact balances_repeated (fun terminals trees one => hi.inTurn apart one 0 h) rounds
  | split primary secondary error =>
    obtain ⟨hp, hs⟩ := (Bool.and_eq_true _ _).mp h
    obtain ⟨first, rest, value, more, rfl, -, derived, rounds⟩ := derived
    exact (hi.balances hp derived).append (balances_repeated (hi.following hs hp) rounds)
  | sequence rules error =>
    obtain ⟨trees, -, turns⟩ := derived
    exact hi.inTurn apart turns 0 h
  | delimited left right separator element error => exact hi.delimited apart h derived
  | choice alternatives error =>
    obtain ⟨tag, rule, value, member, -, derived⟩ := derived
    exact hi.balances (balanced_of_mem h member) derived
  | required rule error =>
    rw [Rule.balanced] at h
    exact hi.balances h derived
  | pair left separator right =>
    rw [Rule.balanced, Bool.and_eq_true, Bool.and_eq_true] at h
    obtain ⟨⟨hl, hs⟩, hr⟩ := h
    obtain ⟨_, -, derived⟩ | ⟨_, -, derived⟩ |
      ⟨first, middle, last, _, _, _, rfl, -, before, between, after⟩ := derived
    · exact hi.balances hr derived
    · exact hi.balances hl derived
    · exact ((hi.balances hl before).append (hi.balances hs between)).append
        (hi.balances hr after)

end

/-- In a grammar of balanced rules, what a balanced rule derives is balanced. -/
theorem balancing_derives {table : Table} {delimiters : Delimiters}
    (balanced : table.Balanced delimiters) (apart : delimiters.Apart) (room : Nat) :
    Balancing delimiters (Derives table room) := by
  induction room with
  | zero =>
    constructor
    case balances => exact fun _ derived => derived.elim
    case token => exact fun derived => derived.elim
  | succ room ih => exact ih.derivesRule balanced apart

end Grammar

end PseudoLang
