import PseudoLang.Proofs.Language.Rendering.Statements
import PseudoLang.Proofs.Language.Rereading
import PseudoLang.Proofs.Number.Reading

/-!
What is read from the trees of a source is well formed, and has proper names and numbers only. The
grammar alone does not say so: that a name is none of the reserved words, and that no number is
negative, comes from the tokens.
-/

namespace PseudoLang

open Grammar Grammar.Language
open Sign (between separated)

/-! ## Proper signs -/

/-- A number that is written with digits alone is not negative. -/
theorem Number.nonneg_of_readInt64? {text : String} {value : Int64}
    (digits : ∀ c ∈ text.toList, Text.isDigit c = true) (h : readInt64? text = some value) :
    0 ≤ value := by
  rw [Int64.le_iff_toInt_le, toInt_of_readInt64? digits h]
  exact Int.natCast_nonneg _

namespace Sign

/-- A name is no reserved word, and a number is not negative. -/
def Proper : Sign → Prop
  | name text => Vocabulary.language.IsName text
  | num value => 0 ≤ value
  | _ => True

theorem proper_of_matches {sign : Sign} {terminal : Terminal} (h : sign.Matches terminal)
    (genuine : terminal.Genuine) : sign.Proper := by
  obtain ⟨kind, spells, text⟩ := h
  cases sign with
  | name word =>
    have same : terminal.2 = word := spells
    exact same ▸ genuine.name kind
  | num value => exact Number.nonneg_of_readInt64? (genuine.num kind) spells
  | mark | operator | float | string | bool | eof => trivial

def AllProper (signs : List Sign) : Prop := ∀ sign ∈ signs, sign.Proper

variable {sign : Sign} {signs more : List Sign} {parts : List (List Sign)}

@[simp]
theorem proper_mark (kind : String) : (mark kind).Proper := trivial

@[simp]
theorem proper_name (text : String) : (name text).Proper ↔ Vocabulary.language.IsName text :=
  Iff.rfl

@[simp]
theorem proper_eof : eof.Proper := trivial

@[simp]
theorem allProper_nil : AllProper [] := by simp [AllProper]

@[simp]
theorem allProper_cons : AllProper (sign :: signs) ↔ sign.Proper ∧ AllProper signs := by
  simp [AllProper]

@[simp]
theorem allProper_append : AllProper (signs ++ more) ↔ AllProper signs ∧ AllProper more := by
  simp [AllProper, or_imp, forall_and]

@[simp]
theorem allProper_flatten : AllProper parts.flatten ↔ ∀ part ∈ parts, AllProper part := by
  induction parts with
  | nil => simp
  | cons part parts ih => simp [ih]

@[simp]
theorem allProper_between (left right : String) :
    AllProper (between left signs right) ↔ AllProper signs := by
  simp [between]

@[simp]
theorem allProper_separated (separator : String) :
    AllProper (separated (.mark separator) parts) ↔ ∀ part ∈ parts, AllProper part := by
  cases parts with
  | nil => simp [separated]
  | cons part parts => simp [separated, List.flatMap_def]

@[simp]
theorem allProper_body : AllProper (body parts) ↔ ∀ part ∈ parts, AllProper part := by
  simp [body]

end Sign

open Sign (AllProper)

/-- A value that is well formed and is written with proper signs. -/
def Sound {α : Type} (wellFormed : α → Prop) (signs : α → List Sign) (value : α) : Prop :=
  wellFormed value ∧ AllProper (signs value)

/-- A tree of a rule of the language, from tokens of a source. -/
abbrev Accepted (n : Nat) (name : String) (tree : SyntaxTree) : Prop :=
  Of Terminal.Genuine n name tree

variable {n : Nat} {tree : SyntaxTree}

/-! ## Expressions -/

theorem sound_of_rereads {α : Type} {read : SyntaxTree → Except Cause α} {wellFormed : α → Prop}
    {signs : α → List Sign} {terminals : List Terminal}
    (h : Rereads read wellFormed signs terminals tree)
    (genuine : ∀ terminal ∈ terminals, terminal.Genuine) :
    Gives (read tree) (Sound wellFormed signs) := by
  intro value reads
  obtain ⟨wf, matched⟩ := h value reads
  refine ⟨wf, ?_⟩
  intro sign member
  obtain ⟨terminal, within, matches_sign⟩ := Precedence.exists_of_mem_forall₂ matched member
  exact Sign.proper_of_matches matches_sign (genuine terminal within)

theorem Grammar.Language.Of.reading {rule : Rule} (h : Shaped table Terminal.Genuine n rule tree) :
    ∃ terminals, Reading n rule terminals tree := by
  obtain ⟨m, terminals, less, all, derived⟩ := h
  exact ⟨terminals, m, less, all, derived⟩

theorem gives_expression (h : Accepted n "expr" tree) :
    Gives (Expression.ofTree tree) (Sound Expression.WellFormed Expression.signs) := by
  obtain ⟨terminals, reading⟩ := Of.reading h
  exact sound_of_rereads (rereads_expression n terminals tree reading) reading.all

theorem gives_expressions {trees : List SyntaxTree} (h : ∀ tree ∈ trees, Accepted n "expr" tree) :
    Gives (Expression.ofTrees trees) fun values =>
      values.length = trees.length ∧
        ∀ value ∈ values, Sound Expression.WellFormed Expression.signs value := by
  rw [Expression.ofTrees_eq]
  exact .mapM fun tree member => gives_expression (h tree member)

theorem gives_atom (h : Accepted n "atom" tree) :
    Gives (Atom.ofTree tree) (Sound Atom.WellFormed Atom.signs) := by
  obtain ⟨terminals, reading⟩ := Of.reading h
  exact sound_of_rereads (rereads_atom (rereads_expression n) reading) reading.all

theorem gives_term (h : Accepted n "term" tree) :
    Gives (Expression.ofTerm tree) fun term =>
      term.IsTerm ∧ Sound Expression.WellFormed Expression.signs term := by
  obtain ⟨terminals, reading⟩ := Of.reading h
  intro term reads
  have sound := sound_of_rereads (rereads_term (rereads_expression n) reading) reading.all
  exact ⟨isTerm_of_ofTerm reads, sound term reads⟩

/-! ## Types and declarations -/

theorem Gives.part {α : Type} {read : SyntaxTree → Except Cause α} {rule : String}
    {good : α → Prop}
    (h : tree = .seq [] ∨ ∃ value, tree = .seq [value] ∧ Gives (read value) good) :
    Gives (tree.part rule read) fun option => ∀ value ∈ option, good value := by
  obtain rfl | ⟨value, rfl, hv⟩ := h
  · exact .ok (by simp)
  · exact hv.bind fun a ha => .ok (by simpa using ha)

theorem gives_arraySuffix (h : Accepted n "arraytypesuffix" tree) :
    Gives (ArraySuffix.ofTree tree) (Sound ArraySuffix.WellFormed ArraySuffix.signs) := by
  have size : Gives (tree.part "arraytypesuffix" Expression.ofTree)
      fun size => ∀ value ∈ size, Sound Expression.WellFormed Expression.signs value := by
    apply Gives.part
    obtain rfl | ⟨value, rfl, hv⟩ := shape_arraySuffix h
    · exact .inl rfl
    · exact .inr ⟨value, rfl, gives_expression hv⟩
  rw [ArraySuffix.ofTree]
  refine size.bind fun size sound => .ok ?_
  cases size with
  | none => simp [Sound, ArraySuffix.WellFormed, ArraySuffix.signs]
  | some value => simpa [Sound, ArraySuffix.WellFormed, ArraySuffix.signs] using sound

theorem gives_arraySuffixes {trees : List SyntaxTree}
    (h : ∀ tree ∈ trees, Accepted n "arraytypesuffix" tree) :
    Gives (ArraySuffix.ofSeries (.seq trees)) fun suffixes =>
      (∀ suffix ∈ suffixes, suffix.WellFormed) ∧
        AllProper (suffixes.flatMap ArraySuffix.signs) := by
  have each : Gives (trees.mapM ArraySuffix.ofTree) _ :=
    .mapM fun tree member => gives_arraySuffix (h tree member)
  intro suffixes reads
  obtain ⟨-, sound⟩ := each suffixes reads
  refine ⟨fun suffix member => (sound suffix member).1, ?_⟩
  simpa [List.flatMap_def] using fun suffix member => (sound suffix member).2

/-- The type of a parameter of a procedure type. -/
abbrev SoundParameters (parameters : List (ElementType × List ArraySuffix)) : Prop :=
  ElementType.AllWellFormed parameters ∧
    ∀ part ∈ ElementType.signsOfEach parameters, AllProper part

theorem gives_parameters {trees : List SyntaxTree}
    (ih : ∀ tree, Accepted n "elementtype" tree →
      Gives (ElementType.ofTree tree) (Sound ElementType.WellFormed ElementType.signs))
    (h : ∀ tree ∈ trees, Accepted n "proctypeparam" tree) :
    Gives (ElementType.ofParameters trees) SoundParameters := by
  induction trees with
  | nil => exact .ok ⟨trivial, by simp [ElementType.signsOfEach]⟩
  | cons parameter trees more =>
    obtain ⟨hp, hr⟩ := List.forall_mem_cons.mp h
    obtain ⟨element, suffixes, rfl, he, hs⟩ := shape_procedureTypeParameter hp
    rw [ElementType.ofParameters]
    refine (ih element he).bind fun element element_sound => ?_
    refine (gives_arraySuffixes hs).bind fun suffixes suffixes_sound => ?_
    refine (more hr).bind fun rest rest_sound => .ok ⟨?_, ?_⟩
    · exact ⟨⟨element_sound.1, suffixes_sound.1⟩, rest_sound.1⟩
    · rw [ElementType.signsOfEach, List.forall_mem_cons]
      refine ⟨?_, rest_sound.2⟩
      simpa using ⟨element_sound.2, suffixes_sound.2⟩

theorem gives_elementType :
    ∀ tree, Accepted n "elementtype" tree →
      Gives (ElementType.ofTree tree) (Sound ElementType.WellFormed ElementType.signs) := by
  induction n with
  | zero => exact fun _ h => absurd h not_shaped_zero
  | succ n ih =>
    intro tree h
    obtain ⟨tag, member, _, rfl, -⟩ | ⟨keyword, parameters, rfl, hp⟩ := shape_elementType h
    · simp only [plainTypes, List.mem_cons, List.not_mem_nil, or_false] at member
      obtain rfl | rfl | rfl | rfl | rfl | rfl := member <;>
        exact .ok ⟨trivial, by simp [ElementType.signs]⟩
    · refine (gives_parameters ih hp).bind fun parameters sound => .ok ⟨sound.1, ?_⟩
      simpa [ElementType.signs] using sound.2

theorem isName_of_token {leaf : SyntaxTree} (h : TokenOf Terminal.Genuine "name" leaf) :
    ∃ text, leaf = .token "name" text ∧ Vocabulary.language.IsName text := by
  obtain ⟨text, rfl, genuine⟩ := h
  exact ⟨text, rfl, genuine.name rfl⟩

theorem gives_predicate (h : Accepted n "predicate" tree) :
    Gives (Predicate.ofTree tree) (Sound Predicate.WellFormed Predicate.signs) := by
  obtain ⟨element, _, suffixes, rfl, he, hn, hs⟩ := shape_predicate h
  obtain ⟨name, rfl, proper⟩ := isName_of_token hn
  rw [Predicate.ofTree, SyntaxTree.text, ok_bind]
  refine (gives_elementType element he).bind fun element element_sound => ?_
  refine (gives_arraySuffixes hs).bind fun suffixes suffixes_sound => .ok ⟨?_, ?_⟩
  · exact ⟨element_sound.1, suffixes_sound.1⟩
  · simpa [Predicate.signs] using ⟨element_sound.2, proper, suffixes_sound.2⟩

theorem gives_declaration (h : Accepted n "decline" tree) :
    Gives (Declaration.ofTree tree) (Sound Declaration.WellFormed Declaration.signs) := by
  obtain ⟨predicate, initial, rfl, hp, hi⟩ := shape_declarationLine h
  have initial_sound : Gives (initial.part "decline" Declaration.initialOf)
      fun initial => ∀ value ∈ initial, Sound Expression.WellFormed Expression.signs value := by
    apply Gives.part
    obtain rfl | ⟨sign, value, rfl, hv⟩ := hi
    · exact .inl rfl
    · exact .inr ⟨_, rfl, gives_expression hv⟩
  rw [Declaration.ofTree]
  refine initial_sound.bind fun initial sound => ?_
  refine (gives_predicate hp).bind fun predicate predicate_sound => .ok ⟨?_, ?_⟩
  · exact ⟨predicate_sound.1, fun value member => (sound value member).1⟩
  · have predicate_proper : AllProper predicate.signs := predicate_sound.2
    cases initial with
    | none => simpa [Declaration.signs] using predicate_proper
    | some value => simpa [Declaration.signs] using ⟨predicate_proper, (sound value rfl).2⟩

/-! ## Actions -/

theorem gives_clause {rule : String} (word : String) (h : FileClause Terminal.Genuine n tree) :
    Gives (tree.part rule (Atom.ofClause rule)) fun file =>
      (∀ atom ∈ file, atom.WellFormed) ∧ AllProper (Atom.clause word file) := by
  have part : Gives (tree.part rule (Atom.ofClause rule))
      fun file => ∀ atom ∈ file, Sound Atom.WellFormed Atom.signs atom := by
    apply Gives.part
    obtain rfl | ⟨keyword, file, rfl, hf⟩ := h
    · exact .inl rfl
    · exact .inr ⟨_, rfl, gives_atom hf⟩
  intro file reads
  have sound := part file reads
  refine ⟨fun atom member => (sound atom member).1, ?_⟩
  cases file with
  | none => simp [Atom.clause]
  | some atom => simpa [Atom.clause] using (sound atom rfl).2

/-- A name with subscripts is a target, whose head has all of the subscripts but the last. -/
theorem Target.wellFormed_ofParts {head : String} {subscripts : List Expression}
    (wf : ∀ index ∈ subscripts, index.WellFormed) :
    (Target.ofParts head subscripts).WellFormed := by
  obtain rfl | ⟨before, index, rfl⟩ := List.eq_nil_or_concat subscripts
  · trivial
  · rw [List.concat_eq_append] at wf ⊢
    obtain ⟨before_wf, last⟩ := List.forall_mem_append.mp wf
    have index_wf := List.forall_mem_singleton.mp last
    rw [Target.ofParts, List.getLast?_concat, List.dropLast_concat]
    cases before with
    | nil => exact ⟨trivial, trivial, index_wf⟩
    | cons first more =>
      have suffixes_wf : Suffix.AllWellFormed ((first :: more).map .subscript) := by
        rw [Suffix.allWellFormed_iff, List.forall_mem_map]
        exact before_wf
      have place : ∀ suffix ∈ (first :: more).map Suffix.subscript,
          ∃ index, suffix = .subscript index := by
        rw [List.forall_mem_map]
        exact fun index _ => ⟨index, rfl⟩
      exact ⟨place, ⟨by simp, trivial, suffixes_wf⟩, index_wf⟩

theorem Target.sound_ofParts {head : String} {subscripts : List Expression}
    (proper : Vocabulary.language.IsName head)
    (sound : ∀ index ∈ subscripts, Sound Expression.WellFormed Expression.signs index) :
    Sound Target.WellFormed Target.signs (.ofParts head subscripts) := by
  refine ⟨wellFormed_ofParts fun index member => (sound index member).1, ?_⟩
  rw [Target.signs_ofParts]
  simpa [List.flatMap_def, subscriptSigns] using
    ⟨proper, fun index member => (sound index member).2⟩

theorem gives_target (h : Accepted n "lval" tree) :
    Gives (Target.ofTree tree) (Sound Target.WellFormed Target.signs) := by
  obtain ⟨_, subscripts, rfl, hn, hs⟩ := shape_target h
  obtain ⟨head, rfl, proper⟩ := isName_of_token hn
  rw [Target.ofTree, SyntaxTree.text, ok_bind, SyntaxTree.items, ok_bind]
  exact (gives_expressions hs).bind fun subscripts sound =>
    .ok (Target.sound_ofParts proper sound.2)

/-- A series has at least one item. -/
theorem Gives.series {α : Type} {read : SyntaxTree → Except Cause α} {good : α → Prop}
    {separator item : SyntaxTree → Prop} {first : SyntaxTree} {rest : List SyntaxTree}
    (hf : item first) (hr : Alternating separator item rest)
    (each : ∀ tree, item tree → Gives (read tree) good) :
    Gives ((SyntaxTree.primaries (first :: rest)).mapM read) fun values =>
      values ≠ [] ∧ ∀ value ∈ values, good value := by
  have all := Gives.mapM fun tree member =>
    each tree (primaries_of_alternating hf hr tree member)
  intro values reads
  obtain ⟨length, good⟩ := all values reads
  refine ⟨?_, good⟩
  rintro rfl
  have some := List.length_pos_iff.mpr (SyntaxTree.primaries_ne_nil first rest)
  rw [List.length_nil] at length
  omega

theorem gives_names {first : SyntaxTree} {rest : List SyntaxTree}
    (hf : TokenOf Terminal.Genuine "name" first)
    (hr : Alternating (Shaped table Terminal.Genuine n (token ","))
      (Shaped table Terminal.Genuine n (token "name")) rest) :
    Gives ((SyntaxTree.primaries (first :: rest)).mapM (SyntaxTree.text "input")) fun names =>
      names ≠ [] ∧ ∀ name ∈ names, Vocabulary.language.IsName name := by
  refine Gives.series hf (hr.mono fun _ shaped => shaped.token) fun tree leaf => ?_
  obtain ⟨name, rfl, proper⟩ := isName_of_token leaf
  exact .ok proper

/-! ## Statements -/

/-- A body with at least one statement. -/
def SoundBody (body : List Statement) : Prop :=
  body ≠ [] ∧ ∀ statement ∈ body, Sound Statement.WellFormed Statement.signs statement

theorem SoundBody.wellFormed {body : List Statement} (h : SoundBody body) :
    body ≠ [] ∧ Statement.AllWellFormed body :=
  ⟨h.1, Statement.allWellFormed_iff.mpr fun statement member => (h.2 statement member).1⟩

theorem SoundBody.proper {body : List Statement} (h : SoundBody body) :
    ∀ part ∈ Statement.signsOfEach body, AllProper part := by
  rw [Statement.signsOfEach_eq, List.forall_mem_map]
  exact fun statement member => (h.2 statement member).2

section

variable (ih : ∀ tree, Accepted n "stmt" tree →
  Gives (Statement.ofTree tree) (Sound Statement.WellFormed Statement.signs))

include ih

theorem gives_body (h : Accepted n "body" tree) : Gives (Statement.ofBody tree) SoundBody := by
  obtain ⟨first, rest, rfl, hf, hr⟩ | ⟨value, rfl, hv⟩ := shape_body h
  · rw [Statement.ofBody, Statement.ofSeries_eq]
    exact Gives.series hf hr ih
  · exact (ih value hv).bind fun statement sound => .ok ⟨by simp, by simpa using sound⟩

theorem gives_alternative
    (h : tree = .seq [] ∨ ∃ line keyword body, tree = .seq [.seq [line, keyword, body]] ∧
      Accepted n "body" body) :
    Gives (Statement.ofAlternative tree) fun alternative =>
      Statement.PartWellFormed alternative ∧
        AllProper (Statement.signsOfAlternative alternative) := by
  obtain rfl | ⟨line, keyword, body, rfl, hb⟩ := h
  · exact .ok ⟨trivial, by simp [Statement.signsOfAlternative]⟩
  · refine (gives_body ih hb).bind fun body sound => .ok ⟨sound.wellFormed, ?_⟩
    simpa [Statement.signsOfAlternative] using sound.proper

theorem gives_arm (h : Accepted n "case_case" tree) :
    Gives (Statement.ofArm tree) fun arm =>
      (arm.1.WellFormed ∧ arm.2 ≠ [] ∧ Statement.AllWellFormed arm.2) ∧
        AllProper (armSigns arm) := by
  obtain ⟨test, sign, body, rfl, ht, hb⟩ := shape_caseArm h
  rw [Statement.ofArm]
  refine (gives_atom ht).bind fun test test_sound => ?_
  refine (gives_body ih hb).bind fun body sound => .ok ⟨⟨test_sound.1, sound.wellFormed⟩, ?_⟩
  simpa [armSigns] using ⟨test_sound.2, sound.proper⟩

/-- Without cases there is a default case. -/
theorem gives_arms {arms : Option SyntaxTree}
    (h : ∀ series ∈ arms, ∃ first rest, series = .seq (first :: rest) ∧
      Accepted n "case_case" first ∧
      Alternating (Shaped table Terminal.Genuine n (token "newline")) (Accepted n "case_case")
        rest) :
    Gives (Statement.ofArms arms) fun cases =>
      (cases = [] → arms = none) ∧ Statement.ArmsWellFormed cases ∧
        ∀ part ∈ Statement.signsOfArms cases, AllProper part := by
  cases arms with
  | none => exact .ok ⟨fun _ => rfl, trivial, by simp [Statement.signsOfArms]⟩
  | some series =>
    obtain ⟨first, rest, rfl, hf, hr⟩ := h series rfl
    rw [Statement.ofArms, Statement.ofArmSeries_eq]
    intro cases reads
    obtain ⟨some, all⟩ := Gives.series hf hr (fun _ => gives_arm ih) cases reads
    refine ⟨fun none => absurd none some, ?_, ?_⟩
    · rw [armsWellFormed_iff]
      exact fun arm member => (all arm member).1
    · rw [signsOfArms_eq, List.forall_mem_map]
      exact fun arm member => (all arm member).2

theorem gives_default {default : Option SyntaxTree}
    (h : ∀ arm ∈ default, Accepted n "default_case" arm) :
    Gives (Statement.ofDefault default) fun body =>
      (body = none → default = none) ∧ Statement.PartWellFormed body ∧
        ∀ part ∈ Statement.signsOfDefault body, AllProper part := by
  cases default with
  | none => exact .ok ⟨fun _ => rfl, trivial, by simp [Statement.signsOfDefault]⟩
  | some arm =>
    obtain ⟨keyword, sign, body, rfl, hb⟩ := shape_defaultArm (h arm rfl)
    rw [Statement.ofDefault]
    refine (gives_body ih hb).bind fun body sound => .ok ⟨by simp, sound.wellFormed, ?_⟩
    simpa [Statement.signsOfDefault] using sound.proper

theorem gives_form {name : String} (member : name ∈ statementForms) (h : Accepted n name tree) :
    Gives (Statement.ofTree (.tagged name tree)) (Sound Statement.WellFormed Statement.signs) := by
  simp only [statementForms, List.mem_cons, List.not_mem_nil, or_false] at member
  obtain rfl | rfl | rfl | rfl | rfl | rfl | rfl | rfl | rfl | rfl := member
  · obtain ⟨keyword, condition, word, body, alternative, line, last, rfl, hc, hb, ha⟩ := shape_if h
    rw [Statement.ofTree]
    refine (gives_alternative ih ha).bind fun alternative alternative_sound => ?_
    refine (gives_expression hc).bind fun condition condition_sound => ?_
    refine (gives_body ih hb).bind fun body body_sound => .ok ⟨?_, ?_⟩
    · exact ⟨condition_sound.1, body_sound.wellFormed, alternative_sound.1⟩
    · simpa [Statement.signs] using
        ⟨condition_sound.2, body_sound.proper, alternative_sound.2⟩
  · obtain ⟨keyword, condition, body, line, last, rfl, hc, hb⟩ := shape_while h
    rw [Statement.ofTree]
    refine (gives_expression hc).bind fun condition condition_sound => ?_
    refine (gives_body ih hb).bind fun body body_sound => .ok ⟨?_, ?_⟩
    · exact ⟨condition_sound.1, body_sound.wellFormed⟩
    · simpa [Statement.signs] using ⟨condition_sound.2, body_sound.proper⟩
  · obtain ⟨keyword, _, sign, start, upTo, stop, stepWord, step, body, line, last, rfl, hn, hs, he,
      hp, hb⟩ := shape_for h
    obtain ⟨counter, rfl, proper⟩ := isName_of_token hn
    rw [Statement.ofTree]
    dsimp only [SyntaxTree.text]
    rw [ok_bind]
    refine (gives_expression hs).bind fun start start_sound => ?_
    refine (gives_expression he).bind fun stop stop_sound => ?_
    refine (gives_expression hp).bind fun step step_sound => ?_
    refine (gives_body ih hb).bind fun body body_sound => .ok ⟨?_, ?_⟩
    · exact ⟨start_sound.1, stop_sound.1, step_sound.1, body_sound.wellFormed⟩
    · simpa [Statement.signs] using
        ⟨proper, start_sound.2, stop_sound.2, step_sound.2, body_sound.proper⟩
  · obtain ⟨keyword, subject, opening, arms, default, closing, line, last, rfl, hs, some, ha, hd⟩ :=
      shape_case h
    rw [Statement.ofTree]
    refine (gives_arms ih ha).bind fun cases cases_sound => ?_
    refine (gives_default ih hd).bind fun body body_sound => ?_
    refine (gives_expression hs).bind fun subject subject_sound => .ok ⟨?_, ?_⟩
    · refine ⟨subject_sound.1, ?_, cases_sound.2.1, body_sound.2.1⟩
      exact fun empty none => some (cases_sound.1 empty) (body_sound.1 none)
    · have parts : ∀ part ∈ Statement.signsOfArms cases ++ Statement.signsOfDefault body,
          AllProper part := List.forall_mem_append.mpr ⟨cases_sound.2.2, body_sound.2.2⟩
      simpa only [Statement.signs, List.flatten_cons, List.flatten_nil, Sign.allProper_append,
        Sign.allProper_cons, Sign.allProper_nil, Sign.allProper_separated, Sign.proper_mark,
        true_and, and_true] using ⟨subject_sound.2, parts⟩
  · obtain ⟨keyword, body, line, word, condition, rfl, hb, hc⟩ := shape_do h
    rw [Statement.ofTree]
    refine (gives_body ih hb).bind fun body body_sound => ?_
    refine (gives_expression hc).bind fun condition condition_sound => .ok ⟨?_, ?_⟩
    · exact ⟨condition_sound.1, body_sound.wellFormed⟩
    · simpa [Statement.signs] using ⟨body_sound.proper, condition_sound.2⟩
  · obtain ⟨keyword, target, sign, value, rfl, ht, hv⟩ := shape_set h
    rw [Statement.ofTree]
    refine (gives_target ht).bind fun target target_sound => ?_
    refine (gives_expression hv).bind fun value value_sound => .ok ⟨?_, ?_⟩
    · exact ⟨target_sound.1, value_sound.1⟩
    · simpa [Statement.signs] using ⟨target_sound.2, value_sound.2⟩
  · obtain ⟨keyword, first, rest, file, rfl, hf, hr, hc⟩ := shape_input h
    rw [Statement.ofTree]
    refine (gives_names hf hr).bind fun names names_sound => ?_
    refine (gives_clause "from" hc).bind fun file file_sound => .ok ⟨?_, ?_⟩
    · exact ⟨names_sound.1, file_sound.1⟩
    · simpa [Statement.signs] using ⟨names_sound.2, file_sound.2⟩
  · obtain ⟨keyword, first, rest, file, rfl, hf, hr, hc⟩ := shape_output h
    rw [Statement.ofTree]
    dsimp only [SyntaxTree.items]
    rw [ok_bind, Expression.ofTrees_eq]
    refine (Gives.series hf hr fun _ => gives_expression).bind fun values values_sound => ?_
    refine (gives_clause "to" hc).bind fun file file_sound => .ok ⟨?_, ?_⟩
    · exact ⟨⟨values_sound.1, fun value member => (values_sound.2 value member).1⟩, file_sound.1⟩
    · simpa [Statement.signs] using
        ⟨fun value member => (values_sound.2 value member).2, file_sound.2⟩
  · obtain ⟨keyword, _, path, rfl, hn, hp⟩ := shape_open h
    obtain ⟨name, rfl, proper⟩ := isName_of_token hn
    rw [Statement.ofTree]
    dsimp only [SyntaxTree.text]
    rw [ok_bind]
    refine (gives_atom hp).bind fun path path_sound => .ok ⟨path_sound.1, ?_⟩
    simpa [Statement.signs] using ⟨proper, path_sound.2⟩
  · obtain ⟨keyword, _, rfl, hn⟩ := shape_close h
    obtain ⟨name, rfl, proper⟩ := isName_of_token hn
    exact .ok ⟨trivial, by simpa [Statement.signs] using proper⟩

end

theorem gives_statement :
    ∀ tree, Accepted n "stmt" tree →
      Gives (Statement.ofTree tree) (Sound Statement.WellFormed Statement.signs) := by
  induction n with
  | zero => exact fun _ h => absurd h not_shaped_zero
  | succ n ih =>
    intro tree h
    obtain ⟨name, member, value, rfl, hv⟩ | ⟨value, rfl, hv⟩ := shape_statement h
    · exact gives_form ih member hv
    · exact (gives_term hv).bind fun term sound =>
        .ok ⟨⟨sound.1, sound.2.1⟩, by simpa [Statement.signs] using sound.2.2⟩

end PseudoLang
