import Mathlib.Data.List.Forall2
import PseudoLang.Program.OfTree
import PseudoLang.Proofs.Grammar.Steps
import PseudoLang.Proofs.Token.Sign

/-!
What a rule makes of tokens that are known beforehand. A rule takes a list of signs if it matches
tokens with these signs, moves over all of them and yields a tree that is read as it should be; it
leaves tokens alone if it does not match there. In either case a parse may end early because rules
nest too deep, and for no other reason.
-/

namespace PseudoLang.Grammar

open Parse

/-- The parse ends because rules or operators nest too deep. -/
def TooDeep (halt : Halt) : Prop :=
  ∃ limit position, halt = .error ⟨.nestingTooDeep limit, position⟩

/-- The first of the signs, if there is one, is of none of these kinds. -/
def Clear (kinds : List String) : List Sign → Prop
  | [] => True
  | sign :: _ => sign.kind ∉ kinds

theorem clear_mark {kinds : List String} {kind : String} {rest : List Sign} (h : kind ∉ kinds) :
    Clear kinds (.mark kind :: rest) := h

theorem Clear.mono {kinds fewer : List String} {signs : List Sign} (h : Clear kinds signs)
    (hf : ∀ kind ∈ fewer, kind ∈ kinds) : Clear fewer signs := by
  cases signs with
  | nil => trivial
  | cons sign rest => exact fun member => h (hf _ member)

namespace Parser

variable (p : Parser)

/-! ## Signs ahead -/

/-- The tokens from a cursor on are what these signs ask for. -/
def At (cursor : Nat) (signs : List Sign) : Prop :=
  List.Forall₂ Sign.Admits signs (p.tokens.toList.drop cursor)

variable {p}

theorem At.token {cursor : Nat} {sign : Sign} {rest : List Sign} (h : p.At cursor (sign :: rest)) :
    ∃ token, p.tokens[cursor]? = some token ∧ sign.Admits token ∧ p.At (cursor + 1) rest := by
  obtain ⟨token, more, admits, follows, same⟩ := List.forall₂_cons_left_iff.mp h
  have head : (p.tokens.toList.drop cursor)[0]? = some token := by rw [same]; rfl
  have tail : p.tokens.toList.drop (cursor + 1) = more := by
    rw [← List.drop_drop, same]
    rfl
  rw [List.getElem?_drop, Nat.add_zero, Array.getElem?_toList] at head
  exact ⟨token, head, admits, by rw [At, tail]; exact follows⟩

theorem At.skip {first rest : List Sign} :
    ∀ {cursor : Nat}, p.At cursor (first ++ rest) → p.At (cursor + first.length) rest := by
  induction first with
  | nil => exact fun h => h
  | cons sign first ih =>
    intro cursor h
    obtain ⟨token, -, -, follows⟩ := At.token h
    have := ih follows
    rwa [Nat.add_right_comm, Nat.add_assoc] at this

theorem At.length {cursor : Nat} {signs : List Sign} (h : p.At cursor signs) :
    signs.length = p.tokens.size - cursor := by
  have same := List.Forall₂.length_eq h
  rwa [List.length_drop, Array.length_toList] at same

/-! ## Taking and leaving -/

variable (p)

/-- With fewer than `n` rules inside each other, the rule takes the signs. What comes after them
matters to it only as far as `follow` says. -/
def Takes (n : Nat) (rule : Rule) (signs : List Sign) (follow : List Sign → Prop)
    (reads : SyntaxTree → Prop) : Prop :=
  ∀ room < n, ∀ cursor rest, p.At cursor (signs ++ rest) → follow rest →
    Ensures TooDeep
      (fun result => ∃ tree, result = some (cursor + signs.length, tree) ∧ reads tree)
      (p.evaluateWithin room cursor rule)

/-- The rule does not match where such signs are ahead. -/
def Leaves (n : Nat) (rule : Rule) (ahead : List Sign → Prop) : Prop :=
  ∀ room < n, ∀ cursor signs, p.At cursor signs → ahead signs →
    Ensures TooDeep (fun result => result = none) (p.evaluateWithin room cursor rule)

variable {p} {n : Nat} {signs : List Sign} {follow : List Sign → Prop}
  {reads : SyntaxTree → Prop}

theorem tooDeep_nestingTooDeep (limit : Nat) (position : Position) :
    TooDeep (.error ⟨.nestingTooDeep limit, position⟩) := ⟨limit, position, rfl⟩

/-- A rule is evaluated with less room for the rules inside it, or not at all. -/
theorem ensures_evaluateWithin {post : Match → Prop} {room cursor : Nat} {rule : Rule}
    (h : ∀ less, room = less + 1 →
      Ensures TooDeep post (p.evaluateRule (p.evaluateWithin less) cursor rule)) :
    Ensures TooDeep post (p.evaluateWithin room cursor rule) := by
  cases room with
  | zero => exact fun _ => tooDeep_nestingTooDeep _ _
  | succ less => exact (h less rfl).deeper

theorem Takes.of_rule {rule : Rule}
    (h : ∀ room < n, ∀ cursor rest, p.At cursor (signs ++ rest) → follow rest →
      Ensures TooDeep
        (fun result => ∃ tree, result = some (cursor + signs.length, tree) ∧ reads tree)
        (p.evaluateRule (p.evaluateWithin room) cursor rule)) :
    p.Takes n rule signs follow reads := by
  intro room less cursor rest ahead near
  apply ensures_evaluateWithin
  intro inside same
  have shorter : inside < n := by omega
  exact h inside shorter cursor rest ahead near

theorem Leaves.of_rule {rule : Rule} {ahead : List Sign → Prop}
    (h : ∀ room < n, ∀ cursor signs, p.At cursor signs → ahead signs →
      Ensures TooDeep (fun result => result = none)
        (p.evaluateRule (p.evaluateWithin room) cursor rule)) :
    p.Leaves n rule ahead := by
  intro room less cursor signs here near
  apply ensures_evaluateWithin
  intro inside same
  have shorter : inside < n := by omega
  exact h inside shorter cursor signs here near

theorem Takes.weaken {m : Nat} {rule : Rule} (h : p.Takes n rule signs follow reads) (hm : m ≤ n) :
    p.Takes m rule signs follow reads :=
  fun room less => h room (Nat.lt_of_lt_of_le less hm)

theorem Takes.mono {rule : Rule} {other : SyntaxTree → Prop} {nearer : List Sign → Prop}
    (h : p.Takes n rule signs follow reads) (hf : ∀ rest, nearer rest → follow rest)
    (hr : ∀ tree, reads tree → other tree) : p.Takes n rule signs nearer other := by
  intro room less cursor rest ahead near
  apply (h room less cursor rest ahead (hf rest near)).mono
  rintro result ⟨tree, same, read⟩
  exact ⟨tree, same, hr tree read⟩

theorem Takes.reading {rule : Rule} {other : SyntaxTree → Prop}
    (h : p.Takes n rule signs follow reads) (hr : ∀ tree, reads tree → other tree) :
    p.Takes n rule signs follow other :=
  h.mono (fun _ near => near) hr

theorem Takes.followed {rule : Rule} {nearer : List Sign → Prop}
    (h : p.Takes n rule signs follow reads) (hf : ∀ rest, nearer rest → follow rest) :
    p.Takes n rule signs nearer reads :=
  h.mono hf (fun _ read => read)

theorem Leaves.mono {rule : Rule} {ahead nearer : List Sign → Prop} (h : p.Leaves n rule ahead)
    (hn : ∀ signs, nearer signs → ahead signs) : p.Leaves n rule nearer :=
  fun room less cursor signs here near => h room less cursor signs here (hn signs near)

/-! ## Single rules -/

theorem evaluateRule_reference {evaluate : Evaluator} {cursor : Nat} {name : String}
    {chain : List String} {rule : Rule} (resolved : p.table.resolve name = .ok (chain, rule)) :
    p.evaluateRule evaluate cursor (.reference name) = opening chain (evaluate cursor rule) := by
  simp only [evaluateRule, resolved, lift]
  rfl

theorem Takes.reference {name : String} {chain : List String} {rule : Rule}
    (resolved : p.table.resolve name = .ok (chain, rule))
    (h : p.Takes n rule signs follow reads) :
    p.Takes (n + 1) (.reference name) signs follow reads := by
  intro room less cursor rest ahead near
  apply ensures_evaluateWithin
  intro room' same
  rw [evaluateRule_reference resolved]
  exact (h room' (by omega) cursor rest ahead near).opening chain

/-- A named rule takes what its body takes. -/
theorem Takes.named {name : String} {chain : List String} {rule : Rule}
    (resolved : p.table.resolve name = .ok (chain, rule))
    (h : p.Takes n rule signs follow reads) : p.Takes n (.reference name) signs follow reads :=
  (h.reference resolved).weaken (Nat.le_succ n)

theorem Takes.token {kind : String} {error : Option String} {sign : Sign}
    (same : sign.kind = kind) :
    p.Takes n (.token kind error) [sign] (fun _ => True)
      (fun tree => ∃ value, tree = .token kind value ∧ sign.Spells value) := by
  apply Takes.of_rule
  intro room less cursor rest ahead _
  obtain ⟨token, here, ⟨named, spells, -⟩, -⟩ := At.token ahead
  simp only [evaluateRule, here, named, same, if_true]
  exact .pure ⟨_, rfl, token.value, rfl, spells⟩

/-- A name is taken with its text. -/
theorem Takes.name {error : Option String} (text : String) :
    p.Takes n (.token "name" error) [.name text] (fun _ => True)
      (fun tree => tree = .token "name" text) := by
  have named : p.Takes n (.token "name" error) [.name text] _ _ := .token rfl
  apply named.reading
  rintro _ ⟨value, rfl, spells⟩
  have spelled : value = text := spells
  rw [spelled]

/-- Nothing fits where there is no room. -/
theorem Takes.noRoom {rule : Rule} : p.Takes 0 rule signs follow reads :=
  fun room less => absurd less (Nat.not_lt_zero room)

theorem Takes.filter {rule : Rule}
    (h : p.Takes n rule signs follow (fun value =>
      (∃ tree, Filter.precedence value = .ok (some tree) ∧ reads tree) ∨
      ∃ limit, Filter.precedence value = .error (.nestingTooDeep limit))) :
    p.Takes n (.filter "precedence" rule) signs follow reads := by
  apply Takes.of_rule
  intro room less cursor rest ahead near
  apply (h room less cursor rest ahead near).bind
  rintro _ ⟨value, rfl, ⟨tree, filtered, read⟩ | ⟨limit, failed⟩⟩
  · have lifted : p.lift cursor (Filter.precedence value) = pure (some tree) := by
      rw [filtered]
      rfl
    have passed : Ensures TooDeep (fun result => result = some tree)
        (p.lift cursor (Filter.precedence value)) := by
      rw [lifted]
      exact .pure rfl
    apply passed.bind
    rintro _ rfl
    exact .pure ⟨tree, rfl, read⟩
  · have halted : Ensures TooDeep (fun _ => False) (p.lift cursor (Filter.precedence value)) := by
      rw [failed]
      exact fun _ => tooDeep_nestingTooDeep _ _
    exact halted.bind fun _ h => h.elim

theorem Takes.required {rule : Rule} {error : String} (h : p.Takes n rule signs follow reads) :
    p.Takes n (.required rule error) signs follow reads := by
  apply Takes.of_rule
  intro room less cursor rest ahead near
  apply (h room less cursor rest ahead near).bind
  rintro _ ⟨tree, rfl, read⟩
  exact .pure ⟨tree, rfl, read⟩

theorem Takes.optional {rule : Rule} (h : p.Takes n rule signs follow reads) :
    p.Takes n (.optional rule) signs follow
      (fun tree => ∃ value, tree = .seq [value] ∧ reads value) := by
  apply Takes.of_rule
  intro room less cursor rest ahead near
  apply (h room less cursor rest ahead near).bind
  rintro _ ⟨tree, rfl, read⟩
  exact .pure ⟨_, rfl, tree, rfl, read⟩

theorem Takes.nothing {rule : Rule} (h : p.Leaves n rule follow) :
    p.Takes n (.optional rule) [] follow (fun tree => tree = .seq []) := by
  apply Takes.of_rule
  intro room less cursor rest ahead near
  apply (h room less cursor rest ahead near).bind
  rintro _ rfl
  exact .pure ⟨_, rfl, rfl⟩

/-- What is optional is read as it was written, whether it is there or not. -/
theorem Takes.part {ι : Type} {written : ι → List Sign} {read : SyntaxTree → Except Cause ι}
    {rule : Rule} (name : String) {part : Option ι}
    (takes : ∀ value ∈ part,
      p.Takes n rule (written value) follow (fun tree => read tree = .ok value))
    (leaves : p.Leaves n rule follow) :
    p.Takes n (.optional rule) ((part.map written).getD []) follow
      (fun tree => tree.part name read = .ok part) := by
  cases part with
  | none =>
    apply (Takes.nothing leaves).reading
    rintro _ rfl
    rfl
  | some value =>
    apply (takes value rfl).optional.reading
    rintro _ ⟨tree, rfl, found⟩
    rw [SyntaxTree.part, found]
    rfl

/-! ## Rules in turn -/

variable (p) in
/-- The rules, one after the other, take the parts, one after the other. -/
def TakesInTurn (n : Nat) (rules : List Rule) (parts : List (List Sign))
    (follow : List Sign → Prop) (reads : List SyntaxTree → Prop) : Prop :=
  ∀ room < n, ∀ cursor rest, p.At cursor (parts.flatten ++ rest) → follow rest →
    Ensures TooDeep
      (fun progress => ∃ trees,
        progress = .done (cursor + parts.flatten.length) trees ∧ reads trees)
      (inTurn (p.evaluateWithin room) rules cursor)

theorem TakesInTurn.cons {rule : Rule} {rules : List Rule} {first : List Sign}
    {more : List (List Sign)} {near : List Sign → Prop} {readsFirst : SyntaxTree → Prop}
    {readsMore : List SyntaxTree → Prop} (h : p.Takes n rule first near readsFirst)
    (hn : ∀ rest, follow rest → near (more.flatten ++ rest))
    (hr : p.TakesInTurn n rules more follow readsMore) :
    p.TakesInTurn n (rule :: rules) (first :: more) follow
      (fun trees => ∃ tree rest, trees = tree :: rest ∧ readsFirst tree ∧ readsMore rest) := by
  intro room less cursor rest ahead last
  rw [List.flatten_cons, List.append_assoc] at ahead
  apply (h room less cursor (more.flatten ++ rest) ahead (hn rest last)).bind
  rintro _ ⟨tree, rfl, read⟩
  apply (hr room less _ rest ahead.skip last).bind
  rintro _ ⟨trees, rfl, reads⟩
  rw [List.flatten_cons, List.length_append, ← Nat.add_assoc]
  exact .pure ⟨_, rfl, tree, trees, rfl, read, reads⟩

theorem TakesInTurn.last {rule : Rule} (h : p.Takes n rule signs follow reads) :
    p.TakesInTurn n [rule] [signs] follow (fun trees => ∃ tree, trees = [tree] ∧ reads tree) := by
  intro room less cursor rest ahead last
  rw [List.flatten_singleton] at ahead ⊢
  apply (h room less cursor rest ahead last).bind
  rintro _ ⟨tree, rfl, read⟩
  exact .pure ⟨_, rfl, tree, rfl, read⟩

/-- A mark is followed by anything, and nothing of its token is read. -/
theorem TakesInTurn.mark {kind : String} {error : Option String} {rules : List Rule}
    {more : List (List Sign)} {readsMore : List SyntaxTree → Prop}
    (hr : p.TakesInTurn n rules more follow readsMore) :
    p.TakesInTurn n (.token kind error :: rules) ([.mark kind] :: more) follow
      (fun trees => ∃ tree rest, trees = tree :: rest ∧ readsMore rest) := by
  have mark : p.Takes n (.token kind error) [.mark kind] _ _ := .token rfl
  intro room less cursor rest ahead last
  apply (TakesInTurn.cons mark (fun _ _ => trivial) hr room less cursor rest ahead last).mono
  rintro _ ⟨_, same, tree, more, rfl, -, read⟩
  exact ⟨_, same, tree, more, rfl, read⟩

theorem TakesInTurn.name {text : String} {error : Option String} {rules : List Rule}
    {more : List (List Sign)} {readsMore : List SyntaxTree → Prop}
    (hr : p.TakesInTurn n rules more follow readsMore) :
    p.TakesInTurn n (.token "name" error :: rules) ([.name text] :: more) follow
      (fun trees => ∃ rest, trees = .token "name" text :: rest ∧ readsMore rest) := by
  intro room less cursor rest ahead last
  apply (TakesInTurn.cons (Takes.name text) (fun _ _ => trivial) hr room less cursor rest ahead
    last).mono
  rintro _ ⟨_, same, _, more, rfl, rfl, read⟩
  exact ⟨_, same, more, rfl, read⟩

theorem TakesInTurn.sequence {rules : List Rule} {error : Option String}
    {parts : List (List Sign)} {reads : List SyntaxTree → Prop}
    (h : p.TakesInTurn n rules parts follow reads) :
    p.Takes n (.sequence rules error) parts.flatten follow
      (fun tree => ∃ trees, tree = .seq trees ∧ reads trees) := by
  apply Takes.of_rule
  intro room less cursor rest ahead near
  apply (h room less cursor rest ahead near).bind
  rintro _ ⟨trees, rfl, read⟩
  exact .pure ⟨_, rfl, trees, rfl, read⟩

/-! ## Where a rule does not begin -/

theorem Leaves.token {kind : String} {kinds : List String} (h : kind ∈ kinds) :
    p.Leaves n (.token kind none) (Clear kinds) := by
  apply Leaves.of_rule
  intro room less cursor signs here clear
  cases signs with
  | nil =>
    have absent : p.tokens[cursor]? = none := by
      have length := here.length
      rw [List.length_nil] at length
      exact Array.getElem?_eq_none (by omega)
    simp only [evaluateRule, absent, noMatch]
    exact .pure rfl
  | cons sign signs =>
    obtain ⟨token, present, ⟨named, -⟩, -⟩ := At.token here
    have other : token.typeName ≠ kind := by
      intro same
      rw [named] at same
      exact clear (same ▸ h)
    simp only [evaluateRule, present, other, if_false, noMatch]
    exact .pure rfl

theorem Leaves.reference {name : String} {chain : List String} {rule : Rule}
    {ahead : List Sign → Prop} (resolved : p.table.resolve name = .ok (chain, rule))
    (h : p.Leaves n rule ahead) : p.Leaves n (.reference name) ahead := by
  apply Leaves.of_rule
  intro room less cursor signs here near
  rw [evaluateRule_reference resolved]
  exact (h room less cursor signs here near).opening chain

theorem Leaves.sequence {rule : Rule} {rules : List Rule} {ahead : List Sign → Prop}
    (h : p.Leaves n rule ahead) : p.Leaves n (.sequence (rule :: rules) none) ahead := by
  apply Leaves.of_rule
  intro room less cursor signs here near
  have stopped : Ensures TooDeep (fun progress => progress = .stopped cursor)
      (inTurn (p.evaluateWithin room) (rule :: rules) cursor) := by
    apply (h room less cursor signs here near).bind
    rintro _ rfl
    exact .pure rfl
  apply stopped.bind
  rintro _ rfl
  exact .pure rfl

/-- A sequence that begins as it should, and does not go on. -/
theorem Leaves.later {first rule : Rule} {rules : List Rule} {near ahead : List Sign → Prop}
    (hf : p.Takes n first signs near reads) (hn : ∀ rest, ahead rest → near rest)
    (h : p.Leaves n rule ahead) :
    p.Leaves n (.sequence (first :: rule :: rules) none)
      (fun all => ∃ rest, all = signs ++ rest ∧ ahead rest) := by
  apply Leaves.of_rule
  rintro room less cursor _ here ⟨rest, rfl, last⟩
  have stopped : Ensures TooDeep (fun progress => ∃ stop, progress = .stopped stop)
      (inTurn (p.evaluateWithin room) (first :: rule :: rules) cursor) := by
    apply (hf room less cursor rest here (hn rest last)).bind
    rintro _ ⟨tree, rfl, -⟩
    have next : Ensures TooDeep (fun progress => ∃ stop, progress = .stopped stop)
        (inTurn (p.evaluateWithin room) (rule :: rules) (cursor + signs.length)) := by
      apply (h room less _ rest here.skip last).bind
      rintro _ rfl
      exact .pure ⟨_, rfl⟩
    apply next.bind
    rintro _ ⟨stop, rfl⟩
    exact .pure ⟨stop, rfl⟩
  apply stopped.bind
  rintro _ ⟨stop, rfl⟩
  exact .pure rfl

theorem Leaves.delimited {left right element : Rule} {separator : Option Rule}
    {error : Option String} {ahead : List Sign → Prop} (h : p.Leaves n left ahead) :
    p.Leaves n (.delimited left right separator element error) ahead := by
  apply Leaves.of_rule
  intro room less cursor signs here near
  apply (h room less cursor signs here near).bind
  rintro _ rfl
  exact .pure rfl

theorem Leaves.filter {rule : Rule} {ahead : List Sign → Prop}
    (h : p.Takes n rule [] ahead (fun tree => tree = .seq [])) :
    p.Leaves n (.filter "precedence" rule) ahead := by
  apply Leaves.of_rule
  intro room less cursor signs here near
  apply (h room less cursor signs here near).bind
  rintro _ ⟨_, rfl, rfl⟩
  exact .pure rfl

theorem Leaves.split {primary secondary : Rule} {ahead : List Sign → Prop}
    (h : p.Leaves n primary ahead) : p.Leaves n (.split primary secondary none) ahead := by
  apply Leaves.of_rule
  intro room less cursor signs here near
  apply (h room less cursor signs here near).bind
  rintro _ rfl
  exact .pure rfl

theorem leaves_firstOf {ahead : List Sign → Prop} {alternatives : List (String × Rule)}
    (h : ∀ alternative ∈ alternatives, p.Leaves n alternative.2 ahead) {room : Nat}
    (less : room < n) {cursor : Nat} {signs : List Sign} (here : p.At cursor signs)
    (near : ahead signs) :
    Ensures TooDeep (fun result => result = none)
      (firstOf (p.evaluateWithin room) cursor alternatives) := by
  induction alternatives with
  | nil => exact .pure rfl
  | cons alternative alternatives ih =>
    obtain ⟨first, others⟩ := List.forall_mem_cons.mp h
    apply (first room less cursor signs here near).bind
    rintro _ rfl
    exact ih others

theorem Leaves.choice {ahead : List Sign → Prop} {alternatives : List (String × Rule)}
    (h : ∀ alternative ∈ alternatives, p.Leaves n alternative.2 ahead) :
    p.Leaves n (.choice alternatives none) ahead := by
  apply Leaves.of_rule
  intro room less cursor signs here near
  apply (leaves_firstOf h less here near).bind
  rintro _ rfl
  exact .pure rfl

/-! ## Alternatives, delimiters and pairs -/

/-- The alternative that takes the signs, where no other one begins like them. -/
theorem Takes.choice {alternatives : List (String × Rule)} {error : Option String} {tag : String}
    {rule : Rule} (member : (tag, rule) ∈ alternatives)
    (others : ∀ other ∈ alternatives, other.1 ≠ tag →
      p.Leaves n other.2 (fun ahead => ∃ rest, ahead = signs ++ rest))
    (nodup : (alternatives.map Prod.fst).Nodup) (h : p.Takes n rule signs follow reads) :
    p.Takes n (.choice alternatives error) signs follow
      (fun tree => ∃ value, tree = .tagged tag value ∧ reads value) := by
  apply Takes.of_rule
  intro room less cursor rest ahead near
  have found : Ensures TooDeep
      (fun result => ∃ tree, result = some (cursor + signs.length, tree) ∧
        ∃ value, tree = .tagged tag value ∧ reads value)
      (firstOf (p.evaluateWithin room) cursor alternatives) := by
    induction alternatives with
    | nil => cases member
    | cons alternative alternatives ih =>
      obtain ⟨fresh, nodup⟩ := List.nodup_cons.mp nodup
      obtain ⟨first, others⟩ := List.forall_mem_cons.mp others
      obtain rfl | member := List.mem_cons.mp member
      · apply (h room less cursor rest ahead near).bind
        rintro _ ⟨tree, rfl, read⟩
        exact .pure ⟨_, rfl, tree, rfl, read⟩
      · have apart : alternative.1 ≠ tag := by
          rintro rfl
          exact fresh (List.mem_map.mpr ⟨_, member, rfl⟩)
        apply (first apart room less cursor _ ahead ⟨rest, rfl⟩).bind
        rintro _ rfl
        exact ih member others nodup
  apply found.bind
  rintro _ ⟨tree, rfl, read⟩
  exact .pure ⟨tree, rfl, read⟩

/-- The alternatives of a choice. -/
def alternativesOf : Rule → List (String × Rule)
  | .choice alternatives _ => alternatives
  | _ => []

/-- Each of the alternatives begins with a token of the kinds that are listed beside its tag. -/
def Heads (p : Parser) (n : Nat) (alternatives : List (String × Rule))
    (firsts : List (String × List String)) : Prop :=
  ∀ alternative ∈ alternatives,
    ∃ kinds, (alternative.1, kinds) ∈ firsts ∧ p.Leaves n alternative.2 (Clear kinds)

theorem Heads.nil : Heads p n [] [] := by
  intro alternative member
  cases member

theorem Heads.cons {tag : String} {rule : Rule} {kinds : List String}
    {alternatives : List (String × Rule)} {firsts : List (String × List String)}
    (h : p.Leaves n rule (Clear kinds)) (hr : Heads p n alternatives firsts) :
    Heads p n ((tag, rule) :: alternatives) ((tag, kinds) :: firsts) := by
  intro alternative member
  obtain rfl | member := List.mem_cons.mp member
  · exact ⟨kinds, List.mem_cons_self, h⟩
  · obtain ⟨others, listed, leaves⟩ := hr alternative member
    exact ⟨others, List.mem_cons_of_mem _ listed, leaves⟩

theorem Heads.leaves {alternatives : List (String × Rule)} {firsts : List (String × List String)}
    {kinds : List String} (h : Heads p n alternatives firsts)
    (hk : ∀ entry ∈ firsts, ∀ kind ∈ entry.2, kind ∈ kinds) :
    p.Leaves n (.choice alternatives none) (Clear kinds) := by
  refine .choice fun alternative member => ?_
  obtain ⟨fewer, listed, leaves⟩ := h alternative member
  exact leaves.mono fun _ clear => clear.mono (hk _ listed)

/-- The alternative whose tag is listed for the first of the signs. -/
theorem Takes.alternative {alternatives : List (String × Rule)} {error : Option String}
    {firsts : List (String × List String)} {rule : Rule} {sign : Sign} {more : List Sign}
    (tag : String) (heads : Heads p n alternatives firsts)
    (member : (tag, rule) ∈ alternatives) (nodup : (alternatives.map Prod.fst).Nodup)
    (unique : ∀ entry ∈ firsts, sign.kind ∈ entry.2 → entry.1 = tag)
    (h : p.Takes n rule (sign :: more) follow reads) :
    p.Takes n (.choice alternatives error) (sign :: more) follow
      (fun tree => ∃ value, tree = .tagged tag value ∧ reads value) := by
  refine .choice member ?_ nodup h
  intro other listed apart
  obtain ⟨kinds, beside, leaves⟩ := heads other listed
  apply leaves.mono
  rintro _ ⟨rest, rfl⟩
  exact fun first => apart (unique _ beside first)

/-- Marks around what is taken as the content. -/
theorem Takes.delimited {left right : String} {leftError rightError error : Option String}
    {separator : Option Rule} {element : Rule}
    (h : ∀ room < n, ∀ cursor rest, p.At cursor (signs ++ .mark right :: rest) →
      Ensures TooDeep
        (fun result => ∃ tree, result = some (cursor + signs.length, tree) ∧ reads tree)
        (p.content (p.evaluateWithin room) separator element error cursor)) :
    p.Takes n
      (.delimited (.token left leftError) (.token right rightError) separator element error)
      [[.mark left], signs, [.mark right]].flatten (fun _ => True) reads := by
  apply Takes.of_rule
  intro room less cursor rest ahead _
  have opens : p.Takes n (.token left leftError) [.mark left] _ _ := .token rfl
  have closes : p.Takes n (.token right rightError) [.mark right] _ _ := .token rfl
  simp only [List.flatten_cons, List.flatten_nil, List.append_nil, List.append_assoc] at ahead
  have inside := ahead.skip
  apply (opens room less cursor _ ahead trivial).bind
  rintro _ ⟨_, rfl, -⟩
  apply (h room less _ rest inside).bind
  rintro _ ⟨tree, rfl, read⟩
  apply (closes room less _ _ inside.skip trivial).bind
  rintro _ ⟨_, rfl, -⟩
  have length : [[.mark left], signs, [.mark right]].flatten.length =
      [Sign.mark left].length + signs.length + [Sign.mark right].length := by
    simp only [List.flatten_cons, List.flatten_nil, List.length_append, List.append_nil]
    omega
  rw [length, ← Nat.add_assoc, ← Nat.add_assoc]
  exact .pure ⟨tree, rfl, read⟩

theorem Takes.enclosed {left right : String} {leftError rightError error : Option String}
    {element : Rule} {near : List Sign → Prop} (h : p.Takes n element signs near reads)
    (hn : ∀ rest, near (.mark right :: rest)) :
    p.Takes n (.delimited (.token left leftError) (.token right rightError) none element error)
      [[.mark left], signs, [.mark right]].flatten (fun _ => True) reads := by
  refine .delimited fun room less cursor rest ahead => ?_
  apply (h room less cursor _ ahead (hn rest)).bind
  rintro _ ⟨tree, rfl, read⟩
  exact .pure ⟨tree, rfl, read⟩

theorem Takes.pairRight {left separator right : Rule}
    (hl : p.Leaves n left (fun ahead => ∃ rest, ahead = signs ++ rest))
    (hr : p.Takes n right signs follow reads) :
    p.Takes n (.pair left separator right) signs follow
      (fun tree => ∃ after, tree = .pair none (some after) ∧ reads after) := by
  apply Takes.of_rule
  intro room less cursor rest ahead near
  apply (hl room less cursor _ ahead ⟨rest, rfl⟩).bind
  rintro _ rfl
  apply (hr room less cursor rest ahead near).bind
  rintro _ ⟨tree, rfl, read⟩
  exact .pure ⟨_, rfl, tree, rfl, read⟩

theorem Takes.pairLeft {left separator right : Rule} (hl : p.Takes n left signs follow reads)
    (hs : p.Leaves n separator follow) :
    p.Takes n (.pair left separator right) signs follow
      (fun tree => ∃ before, tree = .pair (some before) none ∧ reads before) := by
  apply Takes.of_rule
  intro room less cursor rest ahead near
  apply (hl room less cursor rest ahead near).bind
  rintro _ ⟨tree, rfl, read⟩
  apply (hs room less _ rest ahead.skip near).bind
  rintro _ rfl
  exact .pure ⟨_, rfl, tree, rfl, read⟩

theorem Takes.pairBoth {left separator right : Rule} {first middle last : List Sign}
    {near between : List Sign → Prop} {readsLeft readsMiddle readsRight : SyntaxTree → Prop}
    (hl : p.Takes n left first near readsLeft)
    (hn : ∀ rest, follow rest → near (middle ++ (last ++ rest)))
    (hs : p.Takes n separator middle between readsMiddle)
    (hb : ∀ rest, follow rest → between (last ++ rest))
    (hr : p.Takes n right last follow readsRight) :
    p.Takes n (.pair left separator right) (first ++ (middle ++ last)) follow
      (fun tree => ∃ before after, tree = .pair (some before) (some after) ∧ readsLeft before ∧
        readsRight after) := by
  apply Takes.of_rule
  intro room less cursor rest ahead follows
  rw [List.append_assoc, List.append_assoc] at ahead
  apply (hl room less cursor _ ahead (hn rest follows)).bind
  rintro _ ⟨before, rfl, readLeft⟩
  apply (hs room less _ _ ahead.skip (hb rest follows)).bind
  rintro _ ⟨_, rfl, -⟩
  apply (hr room less _ _ ahead.skip.skip follows).bind
  rintro _ ⟨after, rfl, readRight⟩
  rw [List.length_append, List.length_append, ← Nat.add_assoc, ← Nat.add_assoc]
  exact .pure ⟨_, rfl, before, after, rfl, readLeft, readRight⟩

end Parser

end PseudoLang.Grammar
