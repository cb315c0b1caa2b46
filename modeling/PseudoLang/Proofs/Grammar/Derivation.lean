import PseudoLang.Proofs.Grammar.Steps

/-!
Derivations: which tokens and which tree a rule stands for, with no cursor, no order among
alternatives and nothing about where a repetition ends. `derives_of_evaluateWithin` says that every
match of a rule is a derivation of the tokens that it moves over.
-/

namespace PseudoLang

/-- What the grammar sees of a token: the name that it is matched by and its text. -/
abbrev Terminal := String × String

def Token.terminal (token : Token) : Terminal := (token.typeName, token.value)

namespace Grammar

/-- Which terminals and which tree belong to a rule. -/
abbrev Derivation := Rule → List Terminal → SyntaxTree → Prop

section

variable (table : Table) (inner : Derivation)

/-- Rules one after the other. -/
inductive InTurn : List Rule → List Terminal → List SyntaxTree → Prop
  | nil : InTurn [] [] []
  | cons {rule : Rule} {rules : List Rule} {first rest : List Terminal} {tree : SyntaxTree}
      {trees : List SyntaxTree} :
      inner rule first tree → InTurn rules rest trees →
      InTurn (rule :: rules) (first ++ rest) (tree :: trees)

/-- Any number of rounds. -/
inductive Repeated (round : List Terminal → List SyntaxTree → Prop) :
    List Terminal → List SyntaxTree → Prop
  | nil : Repeated round [] []
  | cons {first rest : List Terminal} {values more : List SyntaxTree} :
      round first values → Repeated round rest more →
      Repeated round (first ++ rest) (values ++ more)

/-- A round of one rule. -/
def Single (rule : Rule) (terminals : List Terminal) (trees : List SyntaxTree) : Prop :=
  ∃ tree, trees = [tree] ∧ inner rule terminals tree

/-- A round of one rule after another, of which the first is kept if `keep` says so. -/
def Following (keep : Bool) (before rule : Rule) (terminals : List Terminal)
    (trees : List SyntaxTree) : Prop :=
  ∃ first rest left right, terminals = first ++ rest ∧
    trees = (if keep then [left, right] else [right]) ∧
    inner before first left ∧ inner rule rest right

/-- The content of a delimited rule. -/
def Content (separator : Option Rule) (element : Rule) (terminals : List Terminal)
    (tree : SyntaxTree) : Prop :=
  match separator with
  | none => inner element terminals tree
  | some separator =>
    (terminals = [] ∧ tree = .seq []) ∨
    ∃ first rest value more, terminals = first ++ rest ∧ tree = .seq (value :: more) ∧
      inner element first value ∧ Repeated (Following inner false separator element) rest more

/-- What a rule stands for, with what the rules inside it stand for given. -/
def DerivesRule : Derivation
  | .reference name, terminals, tree =>
    ∃ chain rule, table.resolve name = .ok (chain, rule) ∧ inner rule terminals tree
  | .token kind _, terminals, tree =>
    ∃ value, terminals = [(kind, value)] ∧ tree = .token kind value
  | .filter name rule, terminals, tree =>
    ∃ filter value, Filter.named? name = some filter ∧ filter value = .ok (some tree) ∧
      inner rule terminals value
  | .optional rule, terminals, tree =>
    (terminals = [] ∧ tree = .seq []) ∨ ∃ value, tree = .seq [value] ∧ inner rule terminals value
  | .many rule, terminals, tree =>
    ∃ trees, tree = .seq trees ∧ Repeated (Single inner rule) terminals trees
  | .cycle rules, terminals, tree =>
    ∃ trees, tree = .seq trees ∧ Repeated (InTurn inner rules) terminals trees
  | .split primary secondary _, terminals, tree =>
    ∃ first rest value more, terminals = first ++ rest ∧ tree = .seq (value :: more) ∧
      inner primary first value ∧ Repeated (Following inner true secondary primary) rest more
  | .sequence rules _, terminals, tree =>
    ∃ trees, tree = .seq trees ∧ InTurn inner rules terminals trees
  | .delimited left right separator element _, terminals, tree =>
    ∃ opening content closing before after, terminals = opening ++ content ++ closing ∧
      inner left opening before ∧ Content inner separator element content tree ∧
      inner right closing after
  | .choice alternatives _, terminals, tree =>
    ∃ tag rule value, (tag, rule) ∈ alternatives ∧ tree = .tagged tag value ∧
      inner rule terminals value
  | .required rule _, terminals, tree => inner rule terminals tree
  | .pair left separator right, terminals, tree =>
    (∃ value, tree = .pair none (some value) ∧ inner right terminals value) ∨
    (∃ value, tree = .pair (some value) none ∧ inner left terminals value) ∨
    ∃ first middle last before between after, terminals = first ++ middle ++ last ∧
      tree = .pair (some before) (some after) ∧
      inner left first before ∧ inner separator middle between ∧ inner right last after

end

/-- What a rule stands for, with the given number of rules inside each other. -/
def Derives (table : Table) : Nat → Derivation
  | 0 => fun _ _ _ => False
  | room + 1 => DerivesRule table (Derives table room)

/-! ## What holds of every tree inside -/

section

variable {inner : Derivation} {P : SyntaxTree → Prop} {terminals : List Terminal}
  {trees : List SyntaxTree}

theorem InTurn.all (hp : ∀ rule terminals tree, inner rule terminals tree → P tree)
    {rules : List Rule} (h : InTurn inner rules terminals trees) : ∀ tree ∈ trees, P tree := by
  induction h with
  | nil => simp
  | cons derived _ ih => exact List.forall_mem_cons.mpr ⟨hp _ _ _ derived, ih⟩

theorem Repeated.all {round : List Terminal → List SyntaxTree → Prop}
    (hp : ∀ terminals trees, round terminals trees → ∀ tree ∈ trees, P tree)
    (h : Repeated round terminals trees) : ∀ tree ∈ trees, P tree := by
  induction h with
  | nil => simp
  | cons one _ ih => exact List.forall_mem_append.mpr ⟨hp _ _ one, ih⟩

theorem Single.all (hp : ∀ rule terminals tree, inner rule terminals tree → P tree) {rule : Rule}
    (h : Single inner rule terminals trees) : ∀ tree ∈ trees, P tree := by
  obtain ⟨tree, rfl, derived⟩ := h
  exact List.forall_mem_singleton.mpr (hp _ _ _ derived)

theorem Following.all (hp : ∀ rule terminals tree, inner rule terminals tree → P tree)
    {keep : Bool} {before rule : Rule} (h : Following inner keep before rule terminals trees) :
    ∀ tree ∈ trees, P tree := by
  obtain ⟨_, _, left, right, -, rfl, first, last⟩ := h
  have hr := hp _ _ _ last
  cases keep with
  | true => exact List.forall_mem_cons.mpr ⟨hp _ _ _ first, List.forall_mem_singleton.mpr hr⟩
  | false => exact List.forall_mem_singleton.mpr hr

end

/-! ## The tokens between two cursors -/

namespace Parser

open Parse

variable (p : Parser)

/-- What the grammar sees of the tokens from one cursor up to another. -/
def between (first last : Nat) : List Terminal :=
  (p.tokens.extract first last).toList.map Token.terminal

/-- A match has moved from one cursor to another, over these terminals. -/
structure Spans (cursor stop : Nat) (terminals : List Terminal) : Prop where
  forward : cursor ≤ stop
  inside : stop ≤ max cursor p.tokens.size
  terminals_eq : terminals = p.between cursor stop

variable {p}

theorem Spans.refl (cursor : Nat) : p.Spans cursor cursor [] := by
  refine ⟨Nat.le_refl _, Nat.le_max_left _ _, ?_⟩
  simp [between]

theorem Spans.trans {first middle last : Nat} {left right : List Terminal}
    (hl : p.Spans first middle left) (hr : p.Spans middle last right) :
    p.Spans first last (left ++ right) := by
  obtain ⟨lf, li, rfl⟩ := hl
  obtain ⟨rf, ri, rfl⟩ := hr
  refine ⟨Nat.le_trans lf rf, by omega, ?_⟩
  simp only [between]
  rw [← List.map_append, ← Array.toList_append, Array.extract_append_extract,
    Nat.min_eq_left lf, Nat.max_eq_right rf]

theorem Spans.token {cursor : Nat} {token : Token} (h : p.tokens[cursor]? = some token) :
    p.Spans cursor (cursor + 1) [token.terminal] := by
  obtain ⟨inside, rfl⟩ := Array.getElem?_eq_some_iff.mp h
  refine ⟨Nat.le_succ _, by omega, ?_⟩
  rw [between, Array.extract_succ_right (Nat.lt_succ_self _) inside, Array.extract_eq_empty_of_le
    (Nat.le_of_eq (Nat.min_eq_left (Nat.le_of_lt inside)))]
  rfl

theorem Spans.length {cursor stop : Nat} {terminals : List Terminal}
    (h : p.Spans cursor stop terminals) : cursor + terminals.length = stop := by
  obtain ⟨forward, inside, rfl⟩ := h
  rw [between, List.length_map, Array.length_toList, Array.size_extract]
  omega

/-- The terminals of a match are those of the tokens it has moved over. -/
theorem Spans.getElem? {cursor stop : Nat} {terminals : List Terminal}
    (h : p.Spans cursor stop terminals) {i : Nat} (less : i < terminals.length) :
    p.tokens[cursor + i]?.map Token.terminal = terminals[i]? := by
  have length := h.length
  obtain ⟨forward, inside, rfl⟩ := h
  have within : i < min stop p.tokens.size - cursor := by
    rwa [between, List.length_map, Array.length_toList, Array.size_extract] at less
  rw [between, List.getElem?_map, Array.getElem?_toList, Array.getElem?_extract, if_pos within]

/-! ## Matches are derivations -/

section

variable {α : Type} {find : Nat → α → Prop}

theorem ensures_none :
    Ensures AnyHalt (fun result => ∀ stop a, result = some (stop, a) → find stop a)
      (pure none) := by
  apply Ensures.pure
  intro stop a found
  cases found

theorem ensures_some {stop : Nat} {a : α} (h : find stop a) :
    Ensures AnyHalt (fun result => ∀ stop a, result = some (stop, a) → find stop a)
      (pure (some (stop, a))) := by
  apply Ensures.pure
  intro other b found
  cases found
  exact h

end

variable {inner : Derivation} {evaluate : Evaluator}

/-- If there is a match, the rule derives what it has moved over. -/
def Derived (p : Parser) (inner : Derivation) (cursor : Nat) (rule : Rule) (result : Match) :
    Prop :=
  ∀ stop tree, result = some (stop, tree) →
    ∃ terminals, p.Spans cursor stop terminals ∧ inner rule terminals tree

/-- An evaluation whose matches are derivations. -/
def EvaluatesTo (p : Parser) (inner : Derivation) (evaluate : Evaluator) : Prop :=
  ∀ cursor rule, Ensures AnyHalt (p.Derived inner cursor rule) (evaluate cursor rule)

theorem ensures_inTurn (he : p.EvaluatesTo inner evaluate) (rules : List Rule) :
    ∀ position, Ensures AnyHalt
      (fun progress => ∀ stop values, progress = .done stop values →
        ∃ terminals, p.Spans position stop terminals ∧ InTurn inner rules terminals values)
      (inTurn evaluate rules position) := by
  induction rules with
  | nil =>
    intro position
    apply Ensures.pure
    intro stop values done
    cases done
    exact ⟨[], .refl position, .nil⟩
  | cons rule rules ih =>
    intro position
    apply (he position rule).bind
    rintro (_ | ⟨next, value⟩) hv
    · exact .pure fun _ _ done => nomatch done
    · obtain ⟨first, spans, derived⟩ := hv next value rfl
      apply (ih next).bind
      rintro (stopped | ⟨stop, values⟩) hp
      · exact .pure fun _ _ done => nomatch done
      · obtain ⟨rest, more, turns⟩ := hp stop values rfl
        apply Ensures.pure
        intro _ _ done
        cases done
        exact ⟨first ++ rest, spans.trans more, .cons derived turns⟩

theorem ensures_firstOf (he : p.EvaluatesTo inner evaluate) (cursor : Nat)
    (alternatives : List (String × Rule)) :
    Ensures AnyHalt
      (fun result => ∀ stop tree, result = some (stop, tree) →
        ∃ tag rule value terminals, (tag, rule) ∈ alternatives ∧ tree = .tagged tag value ∧
          p.Spans cursor stop terminals ∧ inner rule terminals value)
      (firstOf evaluate cursor alternatives) := by
  induction alternatives with
  | nil => exact ensures_none
  | cons alternative alternatives ih =>
    obtain ⟨tag, rule⟩ := alternative
    apply (he cursor rule).bind
    rintro (_ | ⟨next, value⟩) hv
    · apply ih.mono
      rintro result hr stop tree h
      obtain ⟨tag, rule, value, terminals, member, rest⟩ := hr stop tree h
      exact ⟨tag, rule, value, terminals, List.mem_cons_of_mem _ member, rest⟩
    · obtain ⟨terminals, spans, derived⟩ := hv next value rfl
      exact ensures_some ⟨tag, rule, value, terminals, List.mem_cons_self, rfl, spans, derived⟩

/-- A round whose matches are derivations. -/
def RoundsTo (p : Parser) (derives : List Terminal → List SyntaxTree → Prop) (round : Round) :
    Prop :=
  ∀ position, Ensures AnyHalt
    (fun result => ∀ stop values, result = some (stop, values) →
      ∃ terminals, p.Spans position stop terminals ∧ derives terminals values)
    (round position)

variable {derives : List Terminal → List SyntaxTree → Prop} {round : Round}

theorem RoundsTo.moving (h : p.RoundsTo derives round) : p.RoundsTo derives (moving round) := by
  intro position
  refine (h position).bind ?_
  rintro (_ | ⟨next, values⟩) hr
  · exact ensures_none
  · refine .pure ?_
    intro stop more h
    split at h
    · cases h
    · exact hr stop more h

theorem roundsTo_single (he : p.EvaluatesTo inner evaluate) (rule : Rule) :
    p.RoundsTo (Single inner rule) (single evaluate rule) := by
  intro position
  apply (he position rule).bind
  rintro (_ | ⟨next, value⟩) hv
  · exact ensures_none
  · obtain ⟨terminals, spans, derived⟩ := hv next value rfl
    exact ensures_some ⟨terminals, spans, value, rfl, derived⟩

theorem roundsTo_together (he : p.EvaluatesTo inner evaluate) (rules : List Rule) :
    p.RoundsTo (InTurn inner rules) (together evaluate rules) := by
  intro position
  apply (ensures_inTurn he rules position).bind
  rintro (stopped | ⟨stop, values⟩) hp
  · exact ensures_none
  · exact ensures_some (hp stop values rfl)

theorem roundsTo_following (he : p.EvaluatesTo inner evaluate) (keep : Bool)
    (before rule : Rule) :
    p.RoundsTo (Following inner keep before rule) (following evaluate keep before rule) := by
  intro position
  apply (he position before).bind
  rintro (_ | ⟨middle, left⟩) hl
  · exact ensures_none
  · obtain ⟨first, spans, derived⟩ := hl middle left rfl
    apply (he middle rule).bind
    rintro (_ | ⟨next, right⟩) hr
    · exact ensures_none
    · obtain ⟨rest, more, last⟩ := hr next right rfl
      exact ensures_some ⟨first ++ rest, spans.trans more, first, rest, left, right, rfl, rfl,
        derived, last⟩

theorem ensures_iterate (hr : p.RoundsTo derives round) (rounds : Nat) :
    ∀ position values, Ensures AnyHalt
      (fun result => ∃ terminals more, p.Spans position result.1 terminals ∧
        Repeated derives terminals more ∧ result.2 = values.reverse ++ more)
      (iterate round rounds position values) := by
  induction rounds with
  | zero =>
    intro position values
    exact .throw trivial
  | succ rounds ih =>
    intro position values
    apply (hr position).bind
    rintro (_ | ⟨next, more⟩) hv
    · refine .pure ⟨[], [], .refl position, .nil, ?_⟩
      simp
    · obtain ⟨first, spans, derived⟩ := hv next more rfl
      apply (ih next (more.reverse ++ values)).mono
      rintro ⟨stop, all⟩ ⟨rest, others, tail, repeated, same⟩
      refine ⟨first ++ rest, more ++ others, spans.trans tail, .cons derived repeated, ?_⟩
      rw [same]
      simp

theorem ensures_repetition (hr : p.RoundsTo derives round) (position : Nat)
    (values : List SyntaxTree) :
    Ensures AnyHalt
      (fun result => ∃ terminals more, p.Spans position result.1 terminals ∧
        Repeated derives terminals more ∧ result.2 = values ++ more)
      (p.repetition round position values) := by
  have h := ensures_iterate hr (p.tokens.size - position + 1) position values.reverse
  rw [List.reverse_reverse] at h
  exact h

theorem ensures_content (he : p.EvaluatesTo inner evaluate) (separator : Option Rule)
    (element : Rule) (error : Option String) (position : Nat) :
    Ensures AnyHalt
      (fun result => ∀ stop tree, result = some (stop, tree) →
        ∃ terminals, p.Spans position stop terminals ∧
          Content inner separator element terminals tree)
      (p.content evaluate separator element error position) := by
  cases separator with
  | none =>
    apply (he position element).bind
    rintro (_ | result) hv
    · apply (ensures_noMatch position error).mono
      rintro _ rfl _ _ h
      cases h
    · exact .pure hv
  | some separator =>
    refine (he position element).bind ?_
    rintro (_ | ⟨next, value⟩) hv
    · exact ensures_some ⟨[], .refl position, .inl ⟨rfl, rfl⟩⟩
    · obtain ⟨first, spans, derived⟩ := hv next value rfl
      refine (ensures_repetition (roundsTo_following he false separator element) next
        [value]).bind ?_
      rintro ⟨stop, values⟩ ⟨rest, more, tail, repeated, same⟩
      refine .pure ?_
      rintro _ _ h
      cases h
      refine ⟨first ++ rest, spans.trans tail, .inr ?_⟩
      exact ⟨first, rest, value, more, rfl, congrArg _ same, derived, repeated⟩

/-! Each form of rule is evaluated to what it stands for. -/

section

variable {cursor : Nat}

theorem derived_noMatch (error : Option String) (position : Nat) (rule : Rule) :
    Ensures AnyHalt (p.Derived inner cursor rule) (p.noMatch position error) := by
  apply (ensures_noMatch position error).mono
  rintro _ rfl stop tree found
  cases found

theorem derived_token (kind : String) (error : Option String) :
    Ensures AnyHalt (p.Derived (DerivesRule p.table inner) cursor (.token kind error))
      (p.evaluateRule evaluate cursor (.token kind error)) := by
  cases present : p.tokens[cursor]? with
  | none =>
    simp only [evaluateRule, present]
    exact derived_noMatch _ _ _
  | some token =>
    simp only [evaluateRule, present]
    by_cases same : token.typeName = kind
    · rw [if_pos same]
      exact ensures_some ⟨[token.terminal], .token present, token.value, by rw [← same]; rfl, rfl⟩
    · rw [if_neg same]
      exact derived_noMatch _ _ _

variable (he : p.EvaluatesTo inner evaluate)

include he

theorem derived_reference (name : String) :
    Ensures AnyHalt (p.Derived (DerivesRule p.table inner) cursor (.reference name))
      (p.evaluateRule evaluate cursor (.reference name)) := by
  apply (ensures_lift cursor (p.table.resolve name)).bind
  rintro ⟨chain, rule⟩ resolved
  apply ((he cursor rule).opening chain).mono
  intro result hv stop tree found
  obtain ⟨terminals, spans, derived⟩ := hv stop tree found
  exact ⟨terminals, spans, chain, rule, resolved, derived⟩

theorem derived_filter (name : String) (rule : Rule) :
    Ensures AnyHalt (p.Derived (DerivesRule p.table inner) cursor (.filter name rule))
      (p.evaluateRule evaluate cursor (.filter name rule)) := by
  apply (he cursor rule).bind
  rintro (_ | ⟨next, value⟩) hv
  · exact ensures_none
  · obtain ⟨terminals, spans, derived⟩ := hv next value rfl
    dsimp only
    split
    · exact ensures_fail _ _
    · rename_i filter known
      apply (ensures_lift cursor (filter value)).bind
      rintro (_ | tree) filtered
      · exact ensures_none
      · exact ensures_some ⟨terminals, spans, filter, value, known, filtered, derived⟩

theorem derived_optional (rule : Rule) :
    Ensures AnyHalt (p.Derived (DerivesRule p.table inner) cursor (.optional rule))
      (p.evaluateRule evaluate cursor (.optional rule)) := by
  apply (he cursor rule).bind
  rintro (_ | ⟨next, value⟩) hv
  · exact ensures_some ⟨[], .refl cursor, .inl ⟨rfl, rfl⟩⟩
  · obtain ⟨terminals, spans, derived⟩ := hv next value rfl
    exact ensures_some ⟨terminals, spans, .inr ⟨value, rfl, derived⟩⟩

theorem derived_many (rule : Rule) :
    Ensures AnyHalt (p.Derived (DerivesRule p.table inner) cursor (.many rule))
      (p.evaluateRule evaluate cursor (.many rule)) := by
  apply (ensures_repetition (roundsTo_single he rule).moving cursor []).bind
  rintro ⟨stop, values⟩ ⟨terminals, more, spans, repeated, same⟩
  exact ensures_some ⟨terminals, spans, more, congrArg _ same, repeated⟩

theorem derived_cycle (rules : List Rule) :
    Ensures AnyHalt (p.Derived (DerivesRule p.table inner) cursor (.cycle rules))
      (p.evaluateRule evaluate cursor (.cycle rules)) := by
  apply (ensures_repetition (roundsTo_together he rules).moving cursor []).bind
  rintro ⟨stop, values⟩ ⟨terminals, more, spans, repeated, same⟩
  exact ensures_some ⟨terminals, spans, more, congrArg _ same, repeated⟩

theorem derived_split (primary secondary : Rule) (error : Option String) :
    Ensures AnyHalt (p.Derived (DerivesRule p.table inner) cursor (.split primary secondary error))
      (p.evaluateRule evaluate cursor (.split primary secondary error)) := by
  apply (he cursor primary).bind
  rintro (_ | ⟨next, value⟩) hv
  · exact derived_noMatch _ _ _
  · obtain ⟨first, spans, derived⟩ := hv next value rfl
    apply (ensures_repetition (roundsTo_following he true secondary primary).moving next
      [value]).bind
    rintro ⟨stop, values⟩ ⟨rest, more, tail, repeated, same⟩
    exact ensures_some ⟨first ++ rest, spans.trans tail, first, rest, value, more, rfl,
      congrArg _ same, derived, repeated⟩

theorem derived_sequence (rules : List Rule) (error : Option String) :
    Ensures AnyHalt (p.Derived (DerivesRule p.table inner) cursor (.sequence rules error))
      (p.evaluateRule evaluate cursor (.sequence rules error)) := by
  apply (ensures_inTurn he rules cursor).bind
  rintro (stopped | ⟨stop, values⟩) hp
  · exact derived_noMatch _ _ _
  · obtain ⟨terminals, spans, turns⟩ := hp stop values rfl
    exact ensures_some ⟨terminals, spans, values, rfl, turns⟩

theorem derived_delimited (left right : Rule) (separator : Option Rule) (element : Rule)
    (error : Option String) :
    Ensures AnyHalt
      (p.Derived (DerivesRule p.table inner) cursor (.delimited left right separator element error))
      (p.evaluateRule evaluate cursor (.delimited left right separator element error)) := by
  apply (he cursor left).bind
  rintro (_ | ⟨opened, before⟩) hl
  · exact ensures_none
  · obtain ⟨opening, first, open_derived⟩ := hl opened before rfl
    apply (ensures_content he separator element error opened).bind
    rintro (_ | ⟨position, value⟩) hc
    · exact ensures_none
    · obtain ⟨content, middle, inside⟩ := hc position value rfl
      apply (he position right).bind
      rintro (_ | ⟨stop, after⟩) hr
      · exact derived_noMatch _ _ _
      · obtain ⟨closing, last, close_derived⟩ := hr stop after rfl
        exact ensures_some ⟨opening ++ content ++ closing, (first.trans middle).trans last, opening,
          content, closing, before, after, rfl, open_derived, inside, close_derived⟩

theorem derived_choice (alternatives : List (String × Rule)) (error : Option String) :
    Ensures AnyHalt (p.Derived (DerivesRule p.table inner) cursor (.choice alternatives error))
      (p.evaluateRule evaluate cursor (.choice alternatives error)) := by
  apply (ensures_firstOf he cursor alternatives).bind
  rintro (_ | ⟨stop, tree⟩) hc
  · exact derived_noMatch _ _ _
  · obtain ⟨tag, rule, value, terminals, member, rfl, spans, derived⟩ := hc stop tree rfl
    exact ensures_some ⟨terminals, spans, tag, rule, value, member, rfl, derived⟩

theorem derived_required (rule : Rule) (error : String) :
    Ensures AnyHalt (p.Derived (DerivesRule p.table inner) cursor (.required rule error))
      (p.evaluateRule evaluate cursor (.required rule error)) := by
  apply (he cursor rule).bind
  rintro (_ | result) hv
  · exact ensures_failSyntax _ _
  · exact .pure hv

theorem derived_pair (left separator right : Rule) :
    Ensures AnyHalt (p.Derived (DerivesRule p.table inner) cursor (.pair left separator right))
      (p.evaluateRule evaluate cursor (.pair left separator right)) := by
  apply (he cursor left).bind
  rintro (_ | ⟨position, before⟩) hl
  · apply (he cursor right).bind
    rintro (_ | ⟨stop, after⟩) hr
    · exact ensures_none
    · obtain ⟨terminals, spans, derived⟩ := hr stop after rfl
      exact ensures_some ⟨terminals, spans, .inl ⟨after, rfl, derived⟩⟩
  · obtain ⟨first, spans, derived⟩ := hl position before rfl
    apply (he position separator).bind
    rintro (_ | ⟨middle, between⟩) hs
    · exact ensures_some ⟨first, spans, .inr (.inl ⟨before, rfl, derived⟩)⟩
    · obtain ⟨separating, inside, separated⟩ := hs middle between rfl
      apply (he middle right).bind
      rintro (_ | ⟨stop, after⟩) hr
      · exact ensures_none
      · obtain ⟨last, tail, ended⟩ := hr stop after rfl
        exact ensures_some ⟨first ++ separating ++ last, (spans.trans inside).trans tail,
          .inr (.inr ⟨first, separating, last, before, between, after, rfl, rfl, derived,
            separated, ended⟩)⟩

end

theorem ensures_evaluateRule (he : p.EvaluatesTo inner evaluate) :
    p.EvaluatesTo (DerivesRule p.table inner) (p.evaluateRule evaluate) := by
  intro cursor rule
  cases rule with
  | reference name => exact derived_reference he name
  | token kind error => exact derived_token kind error
  | filter name rule => exact derived_filter he name rule
  | optional rule => exact derived_optional he rule
  | many rule => exact derived_many he rule
  | cycle rules => exact derived_cycle he rules
  | split primary secondary error => exact derived_split he primary secondary error
  | sequence rules error => exact derived_sequence he rules error
  | delimited left right separator element error =>
    exact derived_delimited he left right separator element error
  | choice alternatives error => exact derived_choice he alternatives error
  | required rule error => exact derived_required he rule error
  | pair left separator right => exact derived_pair he left separator right

theorem derives_of_evaluateWithin (p : Parser) (room : Nat) :
    p.EvaluatesTo (Derives p.table room) (p.evaluateWithin room) := by
  induction room with
  | zero =>
    intro cursor rule
    exact fun _ => trivial
  | succ room ih =>
    intro cursor rule
    exact (ensures_evaluateRule ih cursor rule).deeper

end Parser

end Grammar

end PseudoLang
