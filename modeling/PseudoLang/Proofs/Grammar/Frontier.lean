import PseudoLang.Proofs.Grammar.Depth
import PseudoLang.Proofs.Grammar.Shape
import PseudoLang.Proofs.Grammar.Table

/-!
The frontier of a tree: the tokens met on a walk from left to right, together with the delimiters
that are not kept in the tree. A rule tells which delimiters these are, so that the frontier is the
frontier of a rule and a tree; in a grammar whose delimiters have fixed texts it is what the tree
was derived from.
-/

namespace PseudoLang

/-! ## Texts -/

/-- The kinds of tokens that may have one text or another. -/
def openKinds : List String :=
  ["name", "literal_num", "literal_float", "literal_string", "literal_bool", "op"]

/-- The kind of the token at the end of a source. -/
def endKind : String := "EOF"

/-- The text of a token of a kind that has only one. -/
def fixedText (kind : String) : String :=
  if kind = "newline" then "\n"
  else if kind = "indent" ∨ kind = "dedent" ∨ kind = endKind then ""
  else kind

/-- A token with the text that its kind has, if there is only one. The equals sign goes by its own
kind and is no operator. -/
def Terminal.Plain (terminal : Terminal) : Prop :=
  (terminal.1 ∉ openKinds → terminal.2 = fixedText terminal.1) ∧
  (terminal.1 = "op" → terminal.2 ≠ "=")

namespace Grammar

open Precedence (Element OperatorTree)

/-! ## The sequence of an expression -/

namespace Filter

/-- An operator as an item of a flat sequence. -/
def operatorItem (operator : String) : SyntaxTree :=
  if operator = "=" then .tagged "eq" (.token "=" "=") else .tagged "op" (.token "op" operator)

/-- The flat sequence of terms and operators that an expression was joined from. -/
def separate : SyntaxTree → List SyntaxTree
  | .binary operator left right => separate left ++ operatorItem operator :: separate right
  | .unary operator operand => operatorItem operator :: separate operand
  | leaf => [leaf]

/-- An item that the grammar of expressions gives. -/
def Separate (item : SyntaxTree) : Prop :=
  (∃ value, item = .tagged "term" value) ∨ ∃ operator, item = operatorItem operator

/-- An element as an item. -/
def itemOf : Element SyntaxTree → SyntaxTree
  | .term leaf => leaf
  | .operator operator => operatorItem operator

theorem elementOf_operatorItem (operator : String) :
    elementOf (operatorItem operator) = .operator operator := by
  unfold operatorItem
  split
  · rename_i equals
    rw [equals]
    rfl
  · rfl

theorem itemOf_elementOf {item : SyntaxTree} (h : Separate item) :
    itemOf (elementOf item) = item := by
  obtain ⟨value, rfl⟩ | ⟨operator, rfl⟩ := h
  · rfl
  · rw [elementOf_operatorItem, itemOf]

theorem separate_join {operators : OperatorTree SyntaxTree}
    (h : ∀ leaf, .term leaf ∈ operators.walk → separate leaf = [leaf]) :
    separate (join operators) = operators.walk.map itemOf := by
  induction operators with
  | term leaf => exact h leaf List.mem_cons_self
  | binary operator left right hl hr =>
    rw [join, separate, hl fun leaf hm => h leaf (by simp [OperatorTree.walk, hm]),
      hr fun leaf hm => h leaf (by simp [OperatorTree.walk, hm])]
    simp [OperatorTree.walk, itemOf]
  | unary operator operand ho =>
    rw [join, separate, ho fun leaf hm => h leaf (by simp [OperatorTree.walk, hm])]
    simp [OperatorTree.walk, itemOf]

/-- Joining by precedence changes nothing about the sequence. -/
theorem separate_precedence {items : List SyntaxTree} {tree : SyntaxTree}
    (h : precedence (.seq items) = .ok (some tree)) (hi : ∀ item ∈ items, Separate item) :
    separate tree = items := by
  obtain ⟨-, _, operators, same, rfl, walk, -⟩ := precedence_eq_ok h
  cases same
  have leaves : ∀ leaf, .term leaf ∈ operators.walk → separate leaf = [leaf] := by
    intro leaf hm
    rw [walk, List.mem_map] at hm
    obtain ⟨item, member, he⟩ := hm
    obtain ⟨value, rfl⟩ | ⟨operator, rfl⟩ := hi item member
    · cases he
      rfl
    · rw [elementOf_operatorItem] at he
      cases he
  have same : ∀ item ∈ items, (itemOf ∘ elementOf) item = id item :=
    fun item member => itemOf_elementOf (hi item member)
  rw [separate_join leaves, walk, List.map_map, List.map_congr_left same, List.map_id]

end Filter

/-! ## Frontiers -/

/-- The token of a delimiter. -/
def Rule.delimiter : Rule → List Terminal
  | .token kind _ => [(kind, fixedText kind)]
  | _ => []

section

variable (table : Table) (inner : Rule → SyntaxTree → List Terminal)

/-- The trees of rules in turn, which begin anew with `again` when they are used up. -/
def turns (again : List Rule) : List Rule → List SyntaxTree → List Terminal
  | _, [] => []
  | rule :: rules, tree :: trees => inner rule tree ++ turns again rules trees
  | [], tree :: trees =>
    match again with
    | [] => []
    | rule :: rules => inner rule tree ++ turns again rules trees

/-- The frontier of a tree of a rule, with the frontiers of the trees inside it given. -/
def frontierOfRule : Rule → SyntaxTree → List Terminal
  | .reference name, tree =>
    match table.resolve name with
    | .ok (_, rule) => inner rule tree
    | .error _ => []
  | .token .., .token kind value => [(kind, value)]
  | .filter _ rule, tree => inner rule (.seq (Filter.separate tree))
  | .optional rule, .seq trees => turns inner [] [rule] trees
  | .many rule, .seq trees => turns inner [rule] [] trees
  | .cycle rules, .seq trees => turns inner rules [] trees
  | .split primary secondary _, .seq trees => turns inner [secondary, primary] [primary] trees
  | .sequence rules _, .seq trees => turns inner [] rules trees
  | .delimited left right none element _, tree =>
    left.delimiter ++ inner element tree ++ right.delimiter
  | .delimited left right (some _) _ _, .seq [] => left.delimiter ++ right.delimiter
  | .delimited left right (some separator) element _, .seq (first :: rest) =>
    left.delimiter ++ (inner element first ++
      rest.flatMap fun tree => separator.delimiter ++ inner element tree) ++ right.delimiter
  | .choice alternatives _, .tagged tag value =>
    match alternatives.lookup tag with
    | some rule => inner rule value
    | none => []
  | .required rule _, tree => inner rule tree
  | .pair _ _ right, .pair none (some after) => inner right after
  | .pair left _ _, .pair (some before) none => inner left before
  | .pair left separator right, .pair (some before) (some after) =>
    inner left before ++ separator.delimiter ++ inner right after
  | _, _ => []

end

/-- The frontier of a tree of a rule, with the given number of rules inside each other. -/
def frontier (table : Table) : Nat → Rule → SyntaxTree → List Terminal
  | 0 => fun _ _ => []
  | room + 1 => frontierOfRule table (frontier table room)

/-! ## Traceable rules -/

/-- A token that needs not be kept in the tree, since its text is known. -/
def Rule.Fixed : Rule → Prop
  | .token kind _ => kind ∉ openKinds ∧ kind ≠ endKind
  | _ => False

/-- An alternative that gives a term or an operator. -/
def Operand : String × Rule → Prop
  | (tag, .token kind _) => (tag, kind) ∈ [("op", "op"), ("eq", "=")]
  | (tag, _) => tag = "term"

mutual

/-- A rule whose trees tell what they were derived from: delimiters are fixed tokens, alternatives
have names of their own, and what is filtered is a sequence of terms and operators. -/
def Rule.Traceable : Rule → Prop
  | .reference _ => True
  | .token kind _ => kind ≠ endKind
  | .filter _ rule =>
    (∃ alternatives, rule = .many (.choice alternatives none) ∧
      ∀ alternative ∈ alternatives, Operand alternative) ∧ rule.Traceable
  | .optional rule | .many rule | .required rule _ => rule.Traceable
  | .cycle rules | .sequence rules _ => Rule.TraceableAll rules
  | .split primary secondary _ => primary.Traceable ∧ secondary.Traceable
  | .delimited left right none element _ => left.Fixed ∧ right.Fixed ∧ element.Traceable
  | .delimited left right (some separator) element _ =>
    left.Fixed ∧ right.Fixed ∧ separator.Fixed ∧ element.Traceable
  | .choice alternatives _ =>
    (alternatives.map Prod.fst).Nodup ∧ Rule.TraceableAlternatives alternatives
  | .pair left separator right => left.Traceable ∧ separator.Fixed ∧ right.Traceable

def Rule.TraceableAll : List Rule → Prop
  | [] => True
  | rule :: rules => rule.Traceable ∧ Rule.TraceableAll rules

def Rule.TraceableAlternatives : List (String × Rule) → Prop
  | [] => True
  | (_, rule) :: alternatives => rule.Traceable ∧ Rule.TraceableAlternatives alternatives

end

/-- A grammar of traceable rules. -/
def Table.Traceable (table : Table) : Prop := Rule.TraceableAlternatives table

theorem Rule.traceable_of_mem {alternatives : List (String × Rule)} {tag : String} {rule : Rule}
    (h : TraceableAlternatives alternatives) (member : (tag, rule) ∈ alternatives) :
    rule.Traceable := by
  induction alternatives with
  | nil => cases member
  | cons alternative alternatives ih =>
    obtain ⟨here, rest⟩ := h
    obtain rfl | member := List.mem_cons.mp member
    · exact here
    · exact ih rest member

theorem Table.Traceable.resolve {table : Table} (h : table.Traceable) {name : String}
    {chain : List String} {rule : Rule} (resolved : table.resolve name = .ok (chain, rule)) :
    rule.Traceable := by
  obtain ⟨last, member⟩ := (resolve_eq_ok.mp resolved).mem
  exact Rule.traceable_of_mem h member

/-! ## Derivations are retraced -/

/-- What a rule derives is the frontier of the tree, without the end of a source. -/
def Retraced (walk : Rule → SyntaxTree → List Terminal) (rule : Rule) (terminals : List Terminal)
    (tree : SyntaxTree) : Prop :=
  walk rule tree = terminals ∧ ∀ terminal ∈ terminals, terminal.1 ≠ endKind

/-- Every derivation by a traceable rule is retraced. -/
def Retraces (inner : Derivation) (walk : Rule → SyntaxTree → List Terminal) : Prop :=
  ∀ rule terminals tree, rule.Traceable → (∀ terminal ∈ terminals, terminal.Plain) →
    inner rule terminals tree → Retraced walk rule terminals tree

section

variable {inner : Derivation} {walk : Rule → SyntaxTree → List Terminal}
  {terminals : List Terminal} {trees : List SyntaxTree}

theorem turns_nil (again : List Rule) :
    turns walk again [] trees = turns walk again again trees := by
  cases trees with
  | nil => rfl
  | cons tree trees => cases again <;> rfl

theorem retraced_inTurn (hr : Retraces inner walk) {rules : List Rule}
    (traceable : Rule.TraceableAll rules) (plain : ∀ terminal ∈ terminals, terminal.Plain)
    (h : InTurn inner rules terminals trees) (again : List Rule) (more : List SyntaxTree) :
    turns walk again rules (trees ++ more) = terminals ++ turns walk again [] more ∧
      ∀ terminal ∈ terminals, terminal.1 ≠ endKind := by
  induction h with
  | nil => exact ⟨rfl, by simp⟩
  | cons derived _ ih =>
    obtain ⟨first, rest⟩ := List.forall_mem_append.mp plain
    obtain ⟨here, inside⟩ := hr _ _ _ traceable.1 first derived
    obtain ⟨tail, outside⟩ := ih traceable.2 rest
    constructor
    · rw [List.cons_append, turns, here, tail, List.append_assoc]
    · exact List.forall_mem_append.mpr ⟨inside, outside⟩

theorem retraced_repeated (hr : Retraces inner walk) {rules : List Rule}
    (traceable : Rule.TraceableAll rules) (plain : ∀ terminal ∈ terminals, terminal.Plain)
    (h : Repeated (InTurn inner rules) terminals trees) :
    turns walk rules [] trees = terminals ∧ ∀ terminal ∈ terminals, terminal.1 ≠ endKind := by
  induction h with
  | nil => exact ⟨rfl, by simp⟩
  | cons one _ ih =>
    obtain ⟨first, rest⟩ := List.forall_mem_append.mp plain
    obtain ⟨here, inside⟩ := retraced_inTurn hr traceable first one rules _
    obtain ⟨tail, outside⟩ := ih rest
    constructor
    · rw [turns_nil, here, tail]
    · exact List.forall_mem_append.mpr ⟨inside, outside⟩

theorem inTurn_of_single {rule : Rule} (h : Single inner rule terminals trees) :
    InTurn inner [rule] terminals trees := by
  obtain ⟨tree, rfl, derived⟩ := h
  have := InTurn.cons derived .nil
  rwa [List.append_nil] at this

theorem inTurn_of_following {before rule : Rule}
    (h : Following inner true before rule terminals trees) :
    InTurn inner [before, rule] terminals trees := by
  obtain ⟨first, rest, left, right, rfl, rfl, hb, hr⟩ := h
  have := InTurn.cons hb (.cons hr .nil)
  rwa [List.append_nil] at this

theorem Repeated.mono {round round' : List Terminal → List SyntaxTree → Prop}
    (hm : ∀ terminals trees, round terminals trees → round' terminals trees)
    (h : Repeated round terminals trees) : Repeated round' terminals trees := by
  induction h with
  | nil => exact .nil
  | cons one _ ih => exact .cons (hm _ _ one) ih

end

section

variable {table : Table} {room : Nat} {terminals : List Terminal} {tree : SyntaxTree}

theorem derives_token {kind : String} {error : Option String}
    (h : Derives table room (.token kind error) terminals tree) :
    ∃ value, terminals = [(kind, value)] ∧ tree = .token kind value := by
  cases room with
  | zero => exact h.elim
  | succ room => exact h

/-- A delimiter stands for the token that is put in its place. -/
theorem delimiter_of_derives {rule : Rule} (fixed : rule.Fixed)
    (plain : ∀ terminal ∈ terminals, terminal.Plain)
    (h : Derives table room rule terminals tree) :
    rule.delimiter = terminals ∧ ∀ terminal ∈ terminals, terminal.1 ≠ endKind := by
  match rule, fixed with
  | .token kind error, ⟨closed, inside⟩ =>
    obtain ⟨value, rfl, rfl⟩ := derives_token h
    have text : value = fixedText kind := (plain _ List.mem_cons_self).1 closed
    rw [Rule.delimiter, ← text]
    exact ⟨rfl, List.forall_mem_singleton.mpr inside⟩

theorem retraced_separated (hr : Retraces (Derives table room) (frontier table room))
    {separator element : Rule} (fixed : separator.Fixed) (traceable : element.Traceable)
    {trees : List SyntaxTree} (plain : ∀ terminal ∈ terminals, terminal.Plain)
    (h : Repeated (Following (Derives table room) false separator element) terminals trees) :
    (trees.flatMap fun tree => separator.delimiter ++ frontier table room element tree) =
      terminals ∧ ∀ terminal ∈ terminals, terminal.1 ≠ endKind := by
  induction h with
  | nil => exact ⟨rfl, by simp⟩
  | cons one _ ih =>
    obtain ⟨round, rest⟩ := List.forall_mem_append.mp plain
    obtain ⟨first, second, _, value, rfl, rfl, hs, hv⟩ := one
    obtain ⟨before, after⟩ := List.forall_mem_append.mp round
    obtain ⟨separating, inside⟩ := delimiter_of_derives fixed before hs
    obtain ⟨here, within⟩ := hr _ _ _ traceable after hv
    obtain ⟨tail, outside⟩ := ih rest
    refine ⟨?_, List.forall_mem_append.mpr
      ⟨List.forall_mem_append.mpr ⟨inside, within⟩, outside⟩⟩
    simp only [Bool.false_eq_true, if_false, List.singleton_append, List.flatMap_cons]
    rw [tail, here, separating]

/-- What is filtered is a sequence of terms and operators. -/
theorem separate_of_derives {alternatives : List (String × Rule)}
    (operands : ∀ alternative ∈ alternatives, Operand alternative)
    (plain : ∀ terminal ∈ terminals, terminal.Plain)
    (h : Derives table room (.many (.choice alternatives none)) terminals tree) :
    ∃ items, tree = .seq items ∧ ∀ item ∈ items, Filter.Separate item := by
  have shaped : Shaped table Terminal.Plain (room + 1) (.many (.choice alternatives none)) tree :=
    ⟨room, terminals, Nat.lt_succ_self room, plain, h⟩
  obtain ⟨items, rfl, all⟩ := shaped.many
  refine ⟨items, rfl, ?_⟩
  intro item hi
  obtain ⟨tag, rule, value, member, rfl, shaped⟩ := (all item hi).choice
  have operand := operands _ member
  unfold Operand at operand
  split at operand
  · rename_i same
    obtain ⟨rfl, rfl⟩ := Prod.mk.inj same
    obtain ⟨text, rfl, known, other⟩ := shaped.token
    simp only [List.mem_cons, Prod.mk.injEq, List.not_mem_nil, or_false] at operand
    obtain ⟨rfl, rfl⟩ | ⟨rfl, rfl⟩ := operand
    · refine .inr ⟨text, ?_⟩
      rw [Filter.operatorItem, if_neg (other rfl)]
    · have equals : text = "=" := known (by simp [openKinds])
      exact .inr ⟨"=", by rw [equals]; rfl⟩
  · rename_i same
    obtain ⟨rfl, rfl⟩ := Prod.mk.inj same
    exact .inl ⟨value, by rw [operand]⟩

theorem retraced_split (hr : Retraces (Derives table room) (frontier table room))
    {primary secondary : Rule} {error : Option String}
    (traceable : (Rule.split primary secondary error).Traceable)
    (plain : ∀ terminal ∈ terminals, terminal.Plain)
    (h : Derives table (room + 1) (.split primary secondary error) terminals tree) :
    Retraced (frontier table (room + 1)) (.split primary secondary error) terminals tree := by
  obtain ⟨first, rest, value, more, rfl, rfl, derived, rounds⟩ := h
  obtain ⟨hp, hs⟩ := traceable
  obtain ⟨before, after⟩ := List.forall_mem_append.mp plain
  obtain ⟨here, inside⟩ := hr _ _ _ hp before derived
  have both : Rule.TraceableAll [secondary, primary] := ⟨hs, hp, trivial⟩
  obtain ⟨tail, outside⟩ := retraced_repeated hr both after
    (rounds.mono fun _ _ => inTurn_of_following)
  constructor
  · simp only [frontier, frontierOfRule, turns, here, tail]
  · exact List.forall_mem_append.mpr ⟨inside, outside⟩

theorem retraced_enclosed (hr : Retraces (Derives table room) (frontier table room))
    {left right element : Rule} {error : Option String}
    (traceable : (Rule.delimited left right none element error).Traceable)
    (plain : ∀ terminal ∈ terminals, terminal.Plain)
    (h : Derives table (room + 1) (.delimited left right none element error) terminals tree) :
    Retraced (frontier table (room + 1)) (.delimited left right none element error) terminals
      tree := by
  obtain ⟨opening, content, closing, before, after, rfl, hl, hc, hright⟩ := h
  obtain ⟨fixedLeft, fixedRight, traceable⟩ := traceable
  obtain ⟨front, plainClosing⟩ := List.forall_mem_append.mp plain
  obtain ⟨plainOpening, plainContent⟩ := List.forall_mem_append.mp front
  obtain ⟨opens, inLeft⟩ := delimiter_of_derives fixedLeft plainOpening hl
  obtain ⟨closes, inRight⟩ := delimiter_of_derives fixedRight plainClosing hright
  obtain ⟨here, inside⟩ := hr _ _ _ traceable plainContent hc
  constructor
  · simp only [frontier, frontierOfRule, opens, here, closes]
  · have both := List.forall_mem_append.mpr ⟨inLeft, inside⟩
    exact List.forall_mem_append.mpr ⟨both, inRight⟩

theorem retraced_listed (hr : Retraces (Derives table room) (frontier table room))
    {left right separator element : Rule} {error : Option String}
    (traceable : (Rule.delimited left right (some separator) element error).Traceable)
    (plain : ∀ terminal ∈ terminals, terminal.Plain)
    (h : Derives table (room + 1) (.delimited left right (some separator) element error) terminals
      tree) :
    Retraced (frontier table (room + 1)) (.delimited left right (some separator) element error)
      terminals tree := by
  obtain ⟨opening, content, closing, before, after, rfl, hl, hc, hright⟩ := h
  obtain ⟨fixedLeft, fixedRight, fixed, traceable⟩ := traceable
  obtain ⟨front, plainClosing⟩ := List.forall_mem_append.mp plain
  obtain ⟨plainOpening, plainContent⟩ := List.forall_mem_append.mp front
  obtain ⟨opens, inLeft⟩ := delimiter_of_derives fixedLeft plainOpening hl
  obtain ⟨closes, inRight⟩ := delimiter_of_derives fixedRight plainClosing hright
  obtain ⟨rfl, rfl⟩ | ⟨first, rest, value, more, rfl, rfl, derived, rounds⟩ := hc
  · constructor
    · simp only [frontier, frontierOfRule, opens, closes, List.append_nil]
    · rw [List.append_nil]
      exact List.forall_mem_append.mpr ⟨inLeft, inRight⟩
  · obtain ⟨plainFirst, plainRest⟩ := List.forall_mem_append.mp plainContent
    obtain ⟨here, inside⟩ := hr _ _ _ traceable plainFirst derived
    obtain ⟨tail, outside⟩ := retraced_separated hr fixed traceable plainRest rounds
    constructor
    · simp only [frontier, frontierOfRule, opens, here, tail, closes]
    · have items := List.forall_mem_append.mpr ⟨inside, outside⟩
      have both := List.forall_mem_append.mpr ⟨inLeft, items⟩
      exact List.forall_mem_append.mpr ⟨both, inRight⟩

theorem retraced_pair (hr : Retraces (Derives table room) (frontier table room))
    {left separator right : Rule} (traceable : (Rule.pair left separator right).Traceable)
    (plain : ∀ terminal ∈ terminals, terminal.Plain)
    (h : Derives table (room + 1) (.pair left separator right) terminals tree) :
    Retraced (frontier table (room + 1)) (.pair left separator right) terminals tree := by
  obtain ⟨hl, fixed, hright⟩ := traceable
  obtain ⟨value, rfl, derived⟩ | ⟨value, rfl, derived⟩ |
    ⟨first, middle, last, before, between, after, rfl, rfl, hb, hs, ha⟩ := h
  · exact hr _ _ _ hright plain derived
  · exact hr _ _ _ hl plain derived
  · obtain ⟨front, plainLast⟩ := List.forall_mem_append.mp plain
    obtain ⟨plainFirst, plainMiddle⟩ := List.forall_mem_append.mp front
    obtain ⟨here, inFirst⟩ := hr _ _ _ hl plainFirst hb
    obtain ⟨separating, inMiddle⟩ := delimiter_of_derives fixed plainMiddle hs
    obtain ⟨there, inLast⟩ := hr _ _ _ hright plainLast ha
    constructor
    · simp only [frontier, frontierOfRule, here, separating, there]
    · have both := List.forall_mem_append.mpr ⟨inFirst, inMiddle⟩
      exact List.forall_mem_append.mpr ⟨both, inLast⟩

theorem retraces_step (ht : table.Traceable)
    (hr : Retraces (Derives table room) (frontier table room)) :
    Retraces (Derives table (room + 1)) (frontier table (room + 1)) := by
  intro rule terminals tree traceable plain h
  cases rule with
  | reference name =>
    obtain ⟨chain, rule, resolved, derived⟩ := h
    obtain ⟨here, inside⟩ := hr _ _ _ (ht.resolve resolved) plain derived
    constructor
    · simp only [frontier, frontierOfRule, resolved]
      exact here
    · exact inside
  | token kind error =>
    obtain ⟨value, rfl, rfl⟩ := h
    exact ⟨rfl, List.forall_mem_singleton.mpr traceable⟩
  | filter name rule =>
    obtain ⟨⟨alternatives, rfl, operands⟩, traceable⟩ := traceable
    obtain ⟨filter, value, known, filtered, derived⟩ := h
    obtain ⟨items, rfl, separate⟩ := separate_of_derives operands plain derived
    rw [Filter.named?_eq_some known] at filtered
    obtain ⟨here, inside⟩ := hr _ _ _ traceable plain derived
    constructor
    · simp only [frontier, frontierOfRule, Filter.separate_precedence filtered separate]
      exact here
    · exact inside
  | optional rule =>
    obtain ⟨rfl, rfl⟩ | ⟨value, rfl, derived⟩ := h
    · exact ⟨rfl, by simp⟩
    · obtain ⟨here, inside⟩ := hr rule _ _ traceable plain derived
      constructor
      · simp only [frontier, frontierOfRule, turns, here, List.append_nil]
      · exact inside
  | many rule =>
    obtain ⟨trees, rfl, rounds⟩ := h
    exact retraced_repeated hr ⟨traceable, trivial⟩ plain
      (rounds.mono fun _ _ => inTurn_of_single)
  | cycle rules =>
    obtain ⟨trees, rfl, rounds⟩ := h
    exact retraced_repeated hr traceable plain rounds
  | split primary secondary error => exact retraced_split hr traceable plain h
  | sequence rules error =>
    obtain ⟨trees, rfl, inTurn⟩ := h
    obtain ⟨here, inside⟩ := retraced_inTurn hr traceable plain inTurn [] []
    rw [List.append_nil] at here
    constructor
    · simp only [frontier, frontierOfRule, here, turns, List.append_nil]
    · exact inside
  | delimited left right separator element error =>
    cases separator with
    | none => exact retraced_enclosed hr traceable plain h
    | some separator => exact retraced_listed hr traceable plain h
  | choice alternatives error =>
    obtain ⟨nodup, traceable⟩ := traceable
    obtain ⟨tag, rule, value, member, rfl, derived⟩ := h
    obtain ⟨here, inside⟩ :=
      hr _ _ _ (Rule.traceable_of_mem traceable member) plain derived
    constructor
    · simp only [frontier, frontierOfRule, lookup_of_nodup nodup member]
      exact here
    · exact inside
  | required rule error => exact hr _ _ _ traceable plain h
  | pair left separator right => exact retraced_pair hr traceable plain h

/-- Nothing is lost: the frontier of a tree is what it was derived from. -/
theorem retraces (ht : table.Traceable) : Retraces (Derives table room) (frontier table room) := by
  induction room with
  | zero => exact fun _ _ _ _ _ h => h.elim
  | succ room ih => exact retraces_step ht ih

end

end Grammar

end PseudoLang
