import PseudoLang.Program.OfTree
import PseudoLang.Proofs.Grammar.Acceptance

/-!
Repetitions of rules over tokens that are known beforehand. Every round takes one part, and the
repetition ends where no further round matches.
-/

namespace PseudoLang.Grammar.Parser

open Parse

variable {p : Parser} {n : Nat} {signs : List Sign} {follow : List Sign → Prop}
  {reads : SyntaxTree → Prop}

/-! ## Rounds -/

variable (p) in
/-- A round of a repetition takes the signs. -/
def TakesRound (n : Nat) (round : Evaluator → Round) (signs : List Sign)
    (follow : List Sign → Prop) (adds : List SyntaxTree → Prop) : Prop :=
  ∀ room < n, ∀ cursor rest, p.At cursor (signs ++ rest) → follow rest →
    Ensures TooDeep
      (fun result => ∃ values, result = some (cursor + signs.length, values) ∧ adds values)
      (round (p.evaluateWithin room) cursor)

variable (p) in
/-- A round of a repetition does not match where such signs are ahead. -/
def LeavesRound (n : Nat) (round : Evaluator → Round) (ahead : List Sign → Prop) : Prop :=
  ∀ room < n, ∀ cursor signs, p.At cursor signs → ahead signs →
    Ensures TooDeep (fun result => result = none) (round (p.evaluateWithin room) cursor)

theorem TakesRound.single {rule : Rule} (h : p.Takes n rule signs follow reads) :
    p.TakesRound n (fun evaluate => single evaluate rule) signs follow
      (fun values => ∃ tree, values = [tree] ∧ reads tree) := by
  intro room less cursor rest ahead near
  apply (h room less cursor rest ahead near).bind
  rintro _ ⟨tree, rfl, read⟩
  exact .pure ⟨_, rfl, tree, rfl, read⟩

theorem TakesRound.together {rules : List Rule} {parts : List (List Sign)}
    {reads : List SyntaxTree → Prop} (h : p.TakesInTurn n rules parts follow reads) :
    p.TakesRound n (fun evaluate => together evaluate rules) parts.flatten follow reads := by
  intro room less cursor rest ahead near
  apply (h room less cursor rest ahead near).bind
  rintro _ ⟨trees, rfl, read⟩
  exact .pure ⟨_, rfl, read⟩

theorem TakesRound.following {before rule : Rule} {first more : List Sign}
    {near : List Sign → Prop} {readsFirst : SyntaxTree → Prop} (keep : Bool)
    (hb : p.Takes n before first near readsFirst)
    (hn : ∀ rest, follow rest → near (more ++ rest)) (hr : p.Takes n rule more follow reads) :
    p.TakesRound n (fun evaluate => following evaluate keep before rule) (first ++ more) follow
      (fun values => ∃ left right, values = (if keep then [left, right] else [right]) ∧
        readsFirst left ∧ reads right) := by
  intro room less cursor rest ahead last
  rw [List.append_assoc] at ahead
  apply (hb room less cursor (more ++ rest) ahead (hn rest last)).bind
  rintro _ ⟨left, rfl, readLeft⟩
  apply (hr room less _ rest ahead.skip last).bind
  rintro _ ⟨right, rfl, readRight⟩
  rw [List.length_append, ← Nat.add_assoc]
  exact .pure ⟨_, rfl, left, right, rfl, readLeft, readRight⟩

theorem TakesRound.mono {round : Evaluator → Round} {adds more : List SyntaxTree → Prop}
    (h : p.TakesRound n round signs follow adds) (hm : ∀ values, adds values → more values) :
    p.TakesRound n round signs follow more := by
  intro room less cursor rest ahead near
  apply (h room less cursor rest ahead near).mono
  rintro result ⟨values, same, added⟩
  exact ⟨values, same, hm values added⟩

theorem LeavesRound.mono {round : Evaluator → Round} {ahead nearer : List Sign → Prop}
    (h : p.LeavesRound n round ahead) (hn : ∀ signs, nearer signs → ahead signs) :
    p.LeavesRound n round nearer :=
  fun room less cursor signs here near => h room less cursor signs here (hn signs near)

theorem TakesRound.moving {round : Evaluator → Round} {adds : List SyntaxTree → Prop}
    (h : p.TakesRound n round signs follow adds) (some : signs ≠ []) :
    p.TakesRound n (fun evaluate => moving (round evaluate)) signs follow adds := by
  intro room less cursor rest ahead near
  apply (h room less cursor rest ahead near).bind
  rintro _ ⟨values, rfl, added⟩
  have moved : cursor + signs.length ≠ cursor := by
    have := List.length_pos_iff.mpr some
    omega
  dsimp only
  rw [if_neg moved]
  exact .pure ⟨values, rfl, added⟩

theorem LeavesRound.single {rule : Rule} {ahead : List Sign → Prop} (h : p.Leaves n rule ahead) :
    p.LeavesRound n (fun evaluate => single evaluate rule) ahead := by
  intro room less cursor signs here near
  apply (h room less cursor signs here near).bind
  rintro _ rfl
  exact .pure rfl

theorem LeavesRound.following {before rule : Rule} {ahead : List Sign → Prop} (keep : Bool)
    (h : p.Leaves n before ahead) :
    p.LeavesRound n (fun evaluate => following evaluate keep before rule) ahead := by
  intro room less cursor signs here near
  apply (h room less cursor signs here near).bind
  rintro _ rfl
  exact .pure rfl

/-- A separator that nothing comes after is left alone. -/
theorem LeavesRound.dangling {before rule : Rule} {first : List Sign} {near : List Sign → Prop}
    {readsFirst : SyntaxTree → Prop} {ahead : List Sign → Prop} (keep : Bool)
    (hb : p.Takes n before first near readsFirst) (hn : ∀ rest, ahead rest → near rest)
    (hr : p.Leaves n rule ahead) :
    p.LeavesRound n (fun evaluate => Parser.following evaluate keep before rule)
      (fun signs => ∃ rest, signs = first ++ rest ∧ ahead rest) := by
  rintro room less cursor _ here ⟨rest, rfl, last⟩
  apply (hb room less cursor rest here (hn rest last)).bind
  rintro _ ⟨left, rfl, -⟩
  apply (hr room less _ rest here.skip last).bind
  rintro _ rfl
  exact .pure rfl

theorem LeavesRound.together {rule : Rule} {rules : List Rule} {ahead : List Sign → Prop}
    (h : p.Leaves n rule ahead) :
    p.LeavesRound n (fun evaluate => together evaluate (rule :: rules)) ahead := by
  intro room less cursor signs here near
  have stopped : Ensures TooDeep (fun progress => progress = .stopped cursor)
      (inTurn (p.evaluateWithin room) (rule :: rules) cursor) := by
    apply (h room less cursor signs here near).bind
    rintro _ rfl
    exact .pure rfl
  apply stopped.bind
  rintro _ rfl
  exact .pure rfl

theorem LeavesRound.moving {round : Evaluator → Round} {ahead : List Sign → Prop}
    (h : p.LeavesRound n round ahead) :
    p.LeavesRound n (fun evaluate => moving (round evaluate)) ahead := by
  intro room less cursor signs here near
  apply (h room less cursor signs here near).bind
  rintro _ rfl
  exact .pure rfl

/-! ## Repetitions -/

section

variable {ι : Type} {written : ι → List Sign} {near : ι → List Sign → Prop}
  {adds : ι → List SyntaxTree → Prop} {round : Evaluator → Round} {ahead : List Sign → Prop}

/-- Each part is followed by what may follow it, where `rest` comes after the last one. -/
def Chained (written : ι → List Sign) (near : ι → List Sign → Prop) (rest : List Sign) :
    List ι → Prop
  | [] => True
  | part :: parts => near part (parts.flatMap written ++ rest) ∧ Chained written near rest parts

theorem chained_always {rest : List Sign} (parts : List ι) :
    Chained written (fun _ _ => True) rest parts := by
  induction parts with
  | nil => trivial
  | cons part parts ih => exact ⟨trivial, ih⟩

/-- Rounds for the parts, in order, and none after them. The rounds that are left are more than the
tokens that are left, since every round moves on. -/
theorem ensures_iterate_parts {room : Nat} (less : room < n) {parts : List ι}
    (takes : ∀ part ∈ parts, written part ≠ [] ∧
      p.TakesRound n round (written part) (near part) (adds part))
    (leaves : p.LeavesRound n round ahead) {rest : List Sign} (last : ahead rest) :
    ∀ rounds cursor values, p.At cursor (parts.flatMap written ++ rest) →
      Chained written near rest parts → (parts.flatMap written ++ rest).length < rounds →
      Ensures TooDeep
        (fun result => ∃ groups, List.Forall₂ adds parts groups ∧
          result = (cursor + (parts.flatMap written).length, values.reverse ++ groups.flatten))
        (iterate (round (p.evaluateWithin room)) rounds cursor values) := by
  induction parts with
  | nil =>
    intro rounds cursor values here _ enough
    obtain ⟨rounds, rfl⟩ := Nat.exists_eq_succ_of_ne_zero (Nat.ne_zero_of_lt enough)
    apply (leaves room less cursor rest here last).bind
    rintro _ rfl
    exact .pure ⟨[], .nil, by simp⟩
  | cons part parts ih =>
    intro rounds cursor values here chained enough
    obtain ⟨rounds, rfl⟩ := Nat.exists_eq_succ_of_ne_zero (Nat.ne_zero_of_lt enough)
    obtain ⟨⟨some, one⟩, others⟩ := List.forall_mem_cons.mp takes
    obtain ⟨next, chained⟩ := chained
    rw [List.flatMap_cons, List.append_assoc] at here enough
    have moves := List.length_pos_iff.mpr some
    rw [List.length_append] at enough
    apply (one room less cursor _ here next).bind
    rintro _ ⟨more, rfl, added⟩
    apply (ih others rounds _ _ here.skip chained (by omega)).mono
    rintro _ ⟨groups, all, rfl⟩
    refine ⟨more :: groups, .cons added all, ?_⟩
    simp [Nat.add_assoc]

/-- A repetition that begins with some trees already there. -/
theorem ensures_repetition_parts {room : Nat} (less : room < n) {parts : List ι}
    (takes : ∀ part ∈ parts, written part ≠ [] ∧
      p.TakesRound n round (written part) (near part) (adds part))
    (leaves : p.LeavesRound n round ahead) {rest : List Sign} (last : ahead rest) {cursor : Nat}
    (here : p.At cursor (parts.flatMap written ++ rest)) (chained : Chained written near rest parts)
    (values : List SyntaxTree) :
    Ensures TooDeep
      (fun result => ∃ groups, List.Forall₂ adds parts groups ∧
        result = (cursor + (parts.flatMap written).length, values ++ groups.flatten))
      (p.repetition (round (p.evaluateWithin room)) cursor values) := by
  have enough : (parts.flatMap written ++ rest).length < p.tokens.size - cursor + 1 := by
    rw [here.length]
    exact Nat.lt_succ_self _
  have := ensures_iterate_parts less takes leaves last _ cursor values.reverse here chained enough
  rwa [List.reverse_reverse] at this

end

/-! ## Rules that repeat -/

section

variable {ι : Type} {written : ι → List Sign} {readsPart : ι → SyntaxTree → Prop}

theorem flatten_of_singles {parts : List ι} {groups : List (List SyntaxTree)}
    (h : List.Forall₂ (fun part values => ∃ tree, values = [tree] ∧ readsPart part tree) parts
      groups) : List.Forall₂ readsPart parts groups.flatten := by
  induction h with
  | nil => exact .nil
  | cons one _ ih =>
    obtain ⟨tree, rfl, read⟩ := one
    exact .cons read ih

theorem Takes.many {rule : Rule} {near : ι → List Sign → Prop} {parts : List ι}
    (takes : ∀ part ∈ parts, written part ≠ [] ∧
      p.Takes n rule (written part) (near part) (readsPart part))
    (chained : ∀ rest, follow rest → Chained written near rest parts)
    (leaves : p.Leaves n rule follow) :
    p.Takes n (.many rule) (parts.flatMap written) follow
      (fun tree => ∃ trees, tree = .seq trees ∧ List.Forall₂ readsPart parts trees) := by
  apply Takes.of_rule
  intro room less cursor rest ahead last
  have rounds : ∀ part ∈ parts, written part ≠ [] ∧ p.TakesRound n
      (fun evaluate => moving (single evaluate rule)) (written part) (near part)
      (fun values => ∃ tree, values = [tree] ∧ readsPart part tree) :=
    fun part member => ⟨(takes part member).1,
      (TakesRound.single (takes part member).2).moving (takes part member).1⟩
  refine (ensures_repetition_parts less rounds (LeavesRound.single leaves).moving last ahead
    (chained rest last) []).bind ?_
  rintro _ ⟨groups, all, rfl⟩
  exact .pure ⟨_, rfl, groups.flatten, rfl, flatten_of_singles all⟩

/-- Without any part there is nothing to match. -/
theorem Takes.noRounds {rule : Rule} (leaves : p.Leaves n rule follow) :
    p.Takes n (.many rule) [] follow (fun tree => tree = .seq []) := by
  have nothing : ∀ part ∈ ([] : List Unit), [] ≠ ([] : List Sign) ∧
      p.Takes n rule [] (fun _ => True) (fun _ => True) := by simp
  apply (Takes.many nothing (fun _ _ => trivial) leaves).reading
  rintro _ ⟨trees, rfl, all⟩
  rw [List.forall₂_nil_left_iff.mp all]

/-! Separators come before every part but the first. -/

variable {kinds : List String} {separator : String}

theorem clear_flatMap (apart : separator ∉ kinds) {rest : List Sign} (last : Clear kinds rest)
    (parts : List ι) :
    Clear kinds ((parts.flatMap fun part => .mark separator :: written part) ++ rest) := by
  cases parts with
  | nil => exact last
  | cons part parts => exact apart

theorem chained_separated (apart : separator ∉ kinds) {rest : List Sign} (last : Clear kinds rest)
    (parts : List ι) :
    Chained (fun part => .mark separator :: written part) (fun _ => Clear kinds) rest parts := by
  induction parts with
  | nil => trivial
  | cons part parts ih => exact ⟨clear_flatMap apart last parts, ih⟩

theorem takesRound_separated (separator : String) {rule : Rule} {parts : List ι} (keep : Bool)
    (takes : ∀ part ∈ parts, p.Takes n rule (written part) (Clear kinds) (readsPart part)) :
    ∀ part ∈ parts, .mark separator :: written part ≠ [] ∧
      p.TakesRound n (fun evaluate => following evaluate keep (.token separator none) rule)
        (.mark separator :: written part) (Clear kinds)
        (fun values => ∃ left right, values = (if keep then [left, right] else [right]) ∧
          (∃ value, left = .token separator value ∧ (Sign.mark separator).Spells value) ∧
          readsPart part right) := by
  intro part member
  have mark : p.Takes n (.token separator none) [.mark separator] _ _ := .token rfl
  exact ⟨by simp, TakesRound.following keep mark (fun _ _ => trivial) (takes part member)⟩

/-- Of trees with separators between them, the parts are the primaries. -/
theorem primaries_of_pairs {parts : List ι} {groups : List (List SyntaxTree)}
    {readsSeparator : SyntaxTree → Prop}
    (h : List.Forall₂ (fun part values => ∃ left right, values = [left, right] ∧
      readsSeparator left ∧ readsPart part right) parts groups) :
    ∃ trees, List.Forall₂ readsPart parts trees ∧
      SyntaxTree.primaries (groups.flatten.drop 1) = trees ∧
      ∀ first, SyntaxTree.primaries (first :: groups.flatten) = first :: trees := by
  induction h with
  | nil => exact ⟨[], .nil, rfl, fun _ => rfl⟩
  | cons one _ ih =>
    obtain ⟨left, right, rfl, -, read⟩ := one
    obtain ⟨trees, all, -, more⟩ := ih
    refine ⟨right :: trees, .cons read all, more right, fun first => ?_⟩
    have rest := more right
    simp only [List.flatten_cons, List.cons_append, List.nil_append]
    rw [SyntaxTree.primaries, rest]

theorem Takes.split {primary : Rule} {error : Option String} {first : ι} {parts : List ι}
    (takes : ∀ part ∈ first :: parts,
      p.Takes n primary (written part) (Clear kinds) (readsPart part))
    (apart : separator ∉ kinds) (clear : ∀ rest, follow rest → Clear kinds rest)
    (leaves : p.LeavesRound n
      (fun evaluate => following evaluate true (.token separator none) primary) follow) :
    p.Takes n (.split primary (.token separator none) error)
      (Sign.separated (.mark separator) ((first :: parts).map written)) follow
      (fun tree => ∃ trees, tree = .seq trees ∧
        List.Forall₂ readsPart (first :: parts) (SyntaxTree.primaries trees)) := by
  apply Takes.of_rule
  intro room less cursor rest ahead last
  obtain ⟨one, others⟩ := List.forall_mem_cons.mp takes
  have rounds := takesRound_separated separator true others
  simp only [List.map_cons, Sign.separated, List.flatMap_map, List.append_assoc] at ahead ⊢
  apply (one room less cursor _ ahead (clear_flatMap apart (clear rest last) parts)).bind
  rintro _ ⟨tree, rfl, read⟩
  have moves := fun part (member : part ∈ parts) =>
    And.intro (rounds part member).1 ((rounds part member).2.moving (rounds part member).1)
  refine (ensures_repetition_parts less moves leaves.moving last ahead.skip
    (chained_separated apart (clear rest last) parts) [tree]).bind ?_
  rintro _ ⟨groups, all, rfl⟩
  obtain ⟨trees, reads, -, primaries⟩ := primaries_of_pairs all
  refine .pure ⟨.seq ([tree] ++ groups.flatten), ?_, _, rfl, ?_⟩
  · rw [List.length_append, Nat.add_assoc]
  · rw [List.singleton_append, primaries tree]
    exact .cons read reads

/-- A separator and a part, again and again. -/
theorem Takes.cycle {rule : Rule} {parts : List ι}
    (takes : ∀ part ∈ parts, p.Takes n rule (written part) (Clear kinds) (readsPart part))
    (apart : separator ∉ kinds) (clear : ∀ rest, follow rest → Clear kinds rest)
    (leaves : ∀ rest, follow rest → Clear [separator] rest) :
    p.Takes n (.cycle [.token separator none, rule])
      (parts.flatMap fun part => .mark separator :: written part) follow
      (fun tree => ∃ trees, tree = .seq trees ∧
        List.Forall₂ readsPart parts (SyntaxTree.primaries (trees.drop 1))) := by
  apply Takes.of_rule
  intro room less cursor rest ahead last
  have mark : p.Takes n (.token separator none) [.mark separator] _ _ := .token rfl
  have rounds : ∀ part ∈ parts, .mark separator :: written part ≠ [] ∧ p.TakesRound n
      (fun evaluate => moving (together evaluate [.token separator none, rule]))
      (.mark separator :: written part) (Clear kinds)
      (fun values => ∃ left right, values = [left, right] ∧
        (∃ value, left = .token separator value ∧ (Sign.mark separator).Spells value) ∧
        readsPart part right) := by
    intro part member
    have turns := TakesInTurn.cons mark (fun _ _ => trivial)
      (TakesInTurn.last (takes part member))
    have round := (TakesRound.together turns).moving (by simp)
    rw [List.flatten_cons, List.flatten_cons, List.flatten_nil, List.append_nil] at round
    refine ⟨by simp, round.mono ?_⟩
    rintro _ ⟨left, _, rfl, named, right, rfl, read⟩
    exact ⟨left, right, rfl, named, read⟩
  have stops : p.LeavesRound n
      (fun evaluate => moving (together evaluate [.token separator none, rule])) follow :=
    (LeavesRound.together ((Leaves.token List.mem_cons_self).mono leaves)).moving
  refine (ensures_repetition_parts less rounds stops last ahead
    (chained_separated apart (clear rest last) parts) []).bind ?_
  rintro _ ⟨groups, all, rfl⟩
  obtain ⟨trees, reads, primaries, -⟩ := primaries_of_pairs all
  refine .pure ⟨_, rfl, groups.flatten, rfl, ?_⟩
  rw [primaries]
  exact reads

theorem Takes.listed {left right : String} {leftError rightError error : Option String}
    {element : Rule} {starts : List String} {parts : List ι}
    (takes : ∀ part ∈ parts, p.Takes n element (written part) (Clear kinds) (readsPart part))
    (leaves : p.Leaves n element (Clear starts)) (absent : right ∉ starts)
    (apart : separator ∉ kinds) (closes : right ∉ kinds) (ends : right ≠ separator) :
    p.Takes n (.delimited (.token left leftError) (.token right rightError)
        (some (.token separator none)) element error)
      [[.mark left], Sign.separated (.mark separator) (parts.map written), [.mark right]].flatten
      (fun _ => True)
      (fun tree => ∃ trees, tree = .seq trees ∧ List.Forall₂ readsPart parts trees) := by
  refine .delimited fun room less cursor rest ahead => ?_
  cases parts with
  | nil =>
    apply (leaves room less cursor _ ahead absent).bind
    rintro _ rfl
    exact .pure ⟨_, rfl, [], rfl, .nil⟩
  | cons first parts =>
    obtain ⟨one, others⟩ := List.forall_mem_cons.mp takes
    have rounds := takesRound_separated separator false others
    have stops : p.LeavesRound n
        (fun evaluate => following evaluate false (.token separator none) element)
        (Clear [separator]) := .following false (.token List.mem_cons_self)
    have last : Clear [separator] (.mark right :: rest) := by
      rw [Clear, List.mem_singleton]
      exact ends
    have clear : Clear kinds (.mark right :: rest) := closes
    simp only [List.map_cons, Sign.separated, List.flatMap_map, List.append_assoc] at ahead ⊢
    apply (one room less cursor _ ahead (clear_flatMap apart clear parts)).bind
    rintro _ ⟨tree, rfl, read⟩
    refine (ensures_repetition_parts less rounds stops last ahead.skip
      (chained_separated apart clear parts) [tree]).bind ?_
    rintro _ ⟨groups, all, rfl⟩
    have singles : List.Forall₂ (fun part values => ∃ tree, values = [tree] ∧ readsPart part tree)
        parts groups :=
      all.imp fun part values ⟨left, right, same, _, read⟩ => ⟨right, same, read⟩
    refine .pure ⟨.seq ([tree] ++ groups.flatten), ?_, _, rfl, ?_⟩
    · rw [List.length_append, Nat.add_assoc]
    · exact .cons read (flatten_of_singles singles)

end

end PseudoLang.Grammar.Parser
