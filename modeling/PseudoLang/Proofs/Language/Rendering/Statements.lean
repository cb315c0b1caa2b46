import PseudoLang.Proofs.Language.Rendering.Actions

/-!
Statements that are written out are taken and read back, whatever they contain. A body takes all
between its indentation and the end of it; what comes after a body is a line break, and only the
keyword behind the line break tells whether the statement goes on or ends.
-/

namespace PseudoLang

open Grammar Grammar.Language Grammar.Parser
open Sign (between separated)

variable {tokens : Array Token} {file : String} {n : Nat}

/-! ## Where statements begin and end -/

/-- The alternatives of a statement, with the kinds that they begin with. -/
def statementFirsts : List (String × List String) :=
  [("if", ["if"]), ("while", ["while"]), ("for", ["for"]), ("case", ["case"]), ("do", ["do"]),
    ("set", ["set"]), ("input", ["input"]), ("output", ["output"]), ("open", ["open"]),
    ("close", ["close"]), ("exprstmt", atomStarts)]

def statementStarts : List String :=
  ["if", "while", "for", "case", "do", "set", "input", "output", "open", "close"] ++ atomStarts

/-- What would continue a statement. -/
def statementContinues : List String := "," :: "from" :: "to" :: expressionStarts

theorem leaves_keyword {name kind : String} {chain : List String} {rules : List Rule}
    (resolved : Language.table.resolve name = .ok (chain, .sequence (token kind :: rules) none)) :
    (languageParser tokens file).Leaves n (rule name) (Clear [kind]) :=
  .reference resolved (Leaves.token List.mem_cons_self).sequence

theorem heads_statement :
    Heads (languageParser tokens file) n (alternativesOf Language.statement) statementFirsts :=
  .cons (leaves_keyword rfl) <| .cons (leaves_keyword rfl) <| .cons (leaves_keyword rfl) <|
    .cons (leaves_keyword rfl) <| .cons (leaves_keyword rfl) <| .cons (leaves_keyword rfl) <|
    .cons (leaves_keyword rfl) <| .cons (leaves_keyword rfl) <| .cons (leaves_keyword rfl) <|
    .cons (leaves_keyword rfl) <| .cons leaves_term .nil

theorem leaves_statement :
    (languageParser tokens file).Leaves n (rule "stmt") (Clear statementStarts) :=
  .reference rfl (heads_statement.leaves (by decide))

theorem heads_body :
    Heads (languageParser tokens file) n (alternativesOf Language.body)
      [("indented", ["indent"]), ("unindented", statementStarts)] :=
  .cons (Leaves.token List.mem_cons_self).delimited <| .cons leaves_statement .nil

/-! ## Bodies -/

theorem Statement.signsOfEach_eq (statements : List Statement) :
    Statement.signsOfEach statements = statements.map Statement.signs := by
  induction statements with
  | nil => rfl
  | cons statement statements ih => rw [Statement.signsOfEach, ih, List.map_cons]

theorem Statement.allWellFormed_iff {statements : List Statement} :
    Statement.AllWellFormed statements ↔ ∀ statement ∈ statements, statement.WellFormed := by
  induction statements with
  | nil => simp [Statement.AllWellFormed]
  | cons statement statements ih => simp [Statement.AllWellFormed, ih]

/-- Every statement is taken by its rule, with fewer than `n` rules inside each other. -/
def TakesStatements (tokens : Array Token) (file : String) (n : Nat) : Prop :=
  ∀ statement : Statement, statement.WellFormed →
    (languageParser tokens file).Takes n (rule "stmt") statement.signs (Clear statementContinues)
      (fun tree => Statement.ofTree tree = .ok statement)

section

variable (ih : TakesStatements tokens file n)

include ih

theorem takes_body {body : List Statement} (some : body ≠ [])
    (wf : Statement.AllWellFormed body) :
    (languageParser tokens file).Takes n (rule "body") (Sign.body (Statement.signsOfEach body))
      (fun _ => True) (fun tree => Statement.ofBody tree = .ok body) := by
  have each := fun statement member => ih statement (Statement.allWellFormed_iff.mp wf _ member)
  have stops : (languageParser tokens file).LeavesRound n
      (fun evaluate => following evaluate true (.token "newline" none) (rule "stmt"))
      (Clear ("newline" :: statementContinues)) :=
    .following true (.token List.mem_cons_self)
  have ends (rest : List Sign) (clear : Clear ("newline" :: statementContinues) rest) :
      Clear statementContinues rest := clear.mono (by decide)
  cases body with
  | nil => exact absurd rfl some
  | cons first body =>
    rw [Statement.signsOfEach_eq]
    apply Takes.named rfl
    have series : (languageParser tokens file).Takes n
        (series (rule "stmt") "newline" "expected a statement") _ _ _ :=
      Takes.split each (by decide) ends stops
    have enclosed : (languageParser tokens file).Takes n
        (enclosed (token "indent") (expect "dedent" "expected the indented block to end")
          (Language.series (rule "stmt") "newline" "expected a statement")) _ _ _ :=
      Takes.enclosed series fun _ => clear_mark (by decide)
    apply Takes.reading (Takes.alternative "indented" heads_body (.head _) (by decide)
      (by decide) enclosed)
    rintro _ ⟨_, rfl, trees, rfl, all⟩
    rw [Statement.ofBody, Statement.ofSeries_eq]
    exact mapM_of_forall₂ all

/-! ## Conditions and loops -/

theorem takes_else {body : List Statement} (some : body ≠ [])
    (wf : Statement.AllWellFormed body) :
    (languageParser tokens file).Takes n (rule "else")
      [[.mark "newline"], [.mark "else"], Sign.body (Statement.signsOfEach body)].flatten
      (fun _ => True) (fun tree => Statement.ofAlternative (.seq [tree]) = .ok body) := by
  apply Takes.named rfl
  apply Takes.reading (TakesInTurn.sequence (.mark (.mark (.last (takes_body ih some wf)))))
  rintro _ ⟨_, rfl, _, _, rfl, _, _, rfl, _, rfl, read⟩
  rw [Statement.ofAlternative, read]
  rfl

omit ih in
/-- Before `endif` the line break is not part of an alternative. -/
theorem leaves_else :
    (languageParser tokens file).Leaves n (rule "else")
      (fun signs => ∃ rest, signs = [.mark "newline"] ++ rest ∧ Clear ["else"] rest) := by
  have newline : (languageParser tokens file).Takes n (token "newline") [.mark "newline"] _ _ :=
    .token rfl
  exact .reference rfl (.later newline (fun _ _ => trivial) (.token List.mem_cons_self))

theorem takes_alternative {alternative : Option (List Statement)}
    (wf : Statement.PartWellFormed alternative) :
    (languageParser tokens file).Takes n (.optional (rule "else"))
      (Statement.signsOfAlternative alternative)
      (fun signs => ∃ rest, signs = [.mark "newline"] ++ rest ∧ Clear ["else"] rest)
      (fun tree => Statement.ofAlternative tree = .ok alternative) := by
  cases alternative with
  | none =>
    apply (Takes.nothing leaves_else).reading
    rintro _ rfl
    rfl
  | some body =>
    have clause := takes_else ih wf.1 wf.2
    apply (clause.followed fun _ _ => trivial).optional.reading
    rintro _ ⟨tree, rfl, read⟩
    exact read

theorem takes_if {condition : Expression} {body : List Statement}
    {alternative : Option (List Statement)} (condition_wf : condition.WellFormed)
    (some : body ≠ []) (wf : Statement.AllWellFormed body)
    (alternative_wf : Statement.PartWellFormed alternative) :
    (languageParser tokens file).Takes n (rule "if")
      (Statement.ifThen condition body alternative).signs (fun _ => True)
      (fun tree => Statement.ofTree (.tagged "if" tree) =
        .ok (.ifThen condition body alternative)) := by
  rw [Statement.signs]
  apply Takes.named rfl
  apply Takes.reading (TakesInTurn.sequence (.mark
    (.cons (takes_condition condition_wf) (fun _ _ => clear_mark (by decide))
    (.mark (.cons (takes_body ih some wf).required (fun _ _ => trivial)
    (.cons (takes_alternative ih alternative_wf)
      (fun _ _ => ⟨_, rfl, clear_mark (by decide)⟩)
    (.cons (Takes.token rfl).optional (fun _ _ => trivial)
    (.last (.token rfl)))))))))
  rintro _ ⟨_, rfl, _, _, rfl, test, _, rfl, read, _, _, rfl, inner, _, rfl, reads, other, _,
    rfl, more, _, _, rfl, -, _, rfl, -⟩
  simp only [Statement.ofTree, more, ok_bind, read, reads]
  rfl

theorem takes_while {condition : Expression} {body : List Statement}
    (condition_wf : condition.WellFormed) (some : body ≠ [])
    (wf : Statement.AllWellFormed body) :
    (languageParser tokens file).Takes n (rule "while")
      (Statement.whileLoop condition body).signs (fun _ => True)
      (fun tree => Statement.ofTree (.tagged "while" tree) = .ok (.whileLoop condition body)) := by
  rw [Statement.signs]
  apply Takes.named rfl
  apply Takes.reading (TakesInTurn.sequence (.mark
    (.cons (takes_condition condition_wf) (fun _ _ => clear_mark (by decide))
    (.cons (takes_body ih some wf).required (fun _ _ => trivial)
    (.cons (Takes.token rfl).optional (fun _ _ => trivial)
    (.last (.token rfl)))))))
  rintro _ ⟨_, rfl, _, _, rfl, test, _, rfl, read, inner, _, rfl, reads, _, _, rfl, -, _, rfl,
    -⟩
  simp only [Statement.ofTree, ok_bind, read, reads]
  rfl

theorem takes_do {body : List Statement} {condition : Expression} (some : body ≠ [])
    (wf : Statement.AllWellFormed body) (condition_wf : condition.WellFormed) :
    (languageParser tokens file).Takes n (rule "do") (Statement.doUntil body condition).signs
      (Clear expressionStarts)
      (fun tree => Statement.ofTree (.tagged "do" tree) = .ok (.doUntil body condition)) := by
  rw [Statement.signs]
  apply Takes.named rfl
  apply Takes.reading (TakesInTurn.sequence (.mark
    (.cons (takes_body ih some wf) (fun _ _ => trivial)
    (.mark (.mark (.last (takes_condition condition_wf)))))))
  rintro _ ⟨_, rfl, _, _, rfl, inner, _, rfl, reads, _, _, rfl, _, _, rfl, test, rfl,
    read⟩
  simp only [Statement.ofTree, ok_bind, read, reads]
  rfl

theorem takes_for {counter : String} {start stop step : Expression} {body : List Statement}
    (start_wf : start.WellFormed) (stop_wf : stop.WellFormed) (step_wf : step.WellFormed)
    (some : body ≠ []) (wf : Statement.AllWellFormed body) :
    (languageParser tokens file).Takes n (rule "for")
      (Statement.forLoop counter start stop step body).signs (fun _ => True)
      (fun tree => Statement.ofTree (.tagged "for" tree) =
        .ok (.forLoop counter start stop step body)) := by
  rw [Statement.signs]
  apply Takes.named rfl
  apply Takes.reading (TakesInTurn.sequence (.mark (.name (.mark
    (.cons (takesExpressions start start_wf) (fun _ _ => clear_mark (by decide))
    (.mark (.cons (takesExpressions stop stop_wf) (fun _ _ => clear_mark (by decide))
    (.mark (.cons (takesExpressions step step_wf) (fun _ _ => clear_mark (by decide))
    (.cons (takes_body ih some wf).required (fun _ _ => trivial)
    (.cons (Takes.token rfl).optional (fun _ _ => trivial)
    (.last (.token rfl)))))))))))))
  rintro _ ⟨_, rfl, _, _, rfl, _, rfl, _, _, rfl, first, _, rfl,
    read_start, _, _, rfl, second, _, rfl, read_stop, _, _, rfl, third, _, rfl, read_step,
    inner, _, rfl, reads, _, _, rfl, -, _, rfl, -⟩
  simp only [Statement.ofTree, SyntaxTree.text, ok_bind, read_start, read_stop, read_step, reads]
  rfl

/-! ## Cases -/

/-- How one case is written. -/
def armSigns (arm : Atom × List Statement) : List Sign :=
  [arm.1.signs, [.mark ":"], Sign.body (Statement.signsOfEach arm.2)].flatten

omit ih in
theorem signsOfArms_eq (arms : List (Atom × List Statement)) :
    Statement.signsOfArms arms = arms.map armSigns := by
  induction arms with
  | nil => rfl
  | cons arm arms ih =>
    rw [Statement.signsOfArms, ih, List.map_cons]
    rfl

omit ih in
theorem armsWellFormed_iff {arms : List (Atom × List Statement)} :
    Statement.ArmsWellFormed arms ↔
      ∀ arm ∈ arms, arm.1.WellFormed ∧ arm.2 ≠ [] ∧ Statement.AllWellFormed arm.2 := by
  induction arms with
  | nil => simp [Statement.ArmsWellFormed]
  | cons arm arms ih => simp [Statement.ArmsWellFormed, ih]

omit ih in
theorem leaves_arm :
    (languageParser tokens file).Leaves n (rule "case_case") (Clear atomStarts) :=
  .reference rfl leaves_atom.sequence

theorem takes_arm {arm : Atom × List Statement} (wf : arm.1.WellFormed) (some : arm.2 ≠ [])
    (body_wf : Statement.AllWellFormed arm.2) :
    (languageParser tokens file).Takes n (rule "case_case") (armSigns arm) (fun _ => True)
      (fun tree => Statement.ofArm tree = .ok arm) := by
  apply Takes.named rfl
  apply Takes.reading (TakesInTurn.sequence (.cons (takes_atom takesExpressions wf)
    (fun _ _ => trivial) (.mark (.last (takes_body ih some body_wf)))))
  rintro _ ⟨_, rfl, test, _, rfl, read, _, _, rfl, inner, rfl, reads⟩
  rw [Statement.ofArm, read, ok_bind, reads]
  rfl

theorem takes_default {body : List Statement} (some : body ≠ [])
    (wf : Statement.AllWellFormed body) :
    (languageParser tokens file).Takes n (rule "default_case")
      [[.mark "default"], [.mark ":"], Sign.body (Statement.signsOfEach body)].flatten
      (fun _ => True) (fun tree => Statement.ofDefault (.some tree) = .ok (.some body)) := by
  apply Takes.named rfl
  apply Takes.reading (TakesInTurn.sequence (.mark (.mark (.last (takes_body ih some wf)))))
  rintro _ ⟨_, rfl, _, _, rfl, _, _, rfl, inner, rfl, reads⟩
  rw [Statement.ofDefault, reads]
  rfl

theorem takes_arms {arms : List (Atom × List Statement)} (some : arms ≠ [])
    (wf : Statement.ArmsWellFormed arms) {follow : List Sign → Prop}
    (stops : (languageParser tokens file).LeavesRound n
      (fun evaluate => following evaluate true (.token "newline" none) (rule "case_case"))
      follow) :
    (languageParser tokens file).Takes n (.split (rule "case_case") (token "newline") none)
      (separated (.mark "newline") (Statement.signsOfArms arms)) follow
      (fun tree => Statement.ofArms (.some tree) = .ok arms) := by
  cases arms with
  | nil => exact absurd rfl some
  | cons first arms =>
    have each : ∀ arm ∈ first :: arms, (languageParser tokens file).Takes n (rule "case_case")
        (armSigns arm) (Clear []) (fun tree => Statement.ofArm tree = .ok arm) := by
      intro arm member
      obtain ⟨test_wf, inner, body_wf⟩ := armsWellFormed_iff.mp wf arm member
      exact (takes_arm ih test_wf inner body_wf).followed fun _ _ => trivial
    have clear (rest : List Sign) (_ : follow rest) : Clear [] rest := by
      cases rest with
      | nil => trivial
      | cons sign rest => exact List.not_mem_nil
    rw [signsOfArms_eq]
    apply (Takes.split each (by decide) clear stops).reading
    rintro _ ⟨trees, rfl, all⟩
    rw [Statement.ofArms, Statement.ofArmSeries_eq]
    exact mapM_of_forall₂ all

omit ih in
theorem separated_concat {separator : Sign} {parts : List (List Sign)} (some : parts ≠ [])
    (last : List Sign) :
    separated separator (parts ++ [last]) =
      separated separator parts ++ ([separator] ++ last) := by
  cases parts with
  | nil => exact absurd rfl some
  | cons first parts => simp [separated]

/-- Cases, a default case, or both. -/
theorem takes_cases {arms : List (Atom × List Statement)} {default : Option (List Statement)}
    (some : arms = [] → default ≠ none) (wf : Statement.ArmsWellFormed arms)
    (default_wf : Statement.PartWellFormed default) :
    (languageParser tokens file).Takes n
      (.pair (.split (rule "case_case") (token "newline") none) (token "newline")
        (rule "default_case"))
      (separated (.mark "newline")
        (Statement.signsOfArms arms ++ Statement.signsOfDefault default))
      (Clear ["newline"])
      (fun tree => ∃ left right, tree = .pair left right ∧ Statement.ofArms left = .ok arms ∧
        Statement.ofDefault right = .ok default) := by
  cases default with
  | none =>
    have nonempty : arms ≠ [] := fun none => some none rfl
    have series := takes_arms ih nonempty wf (leaves_separator "newline")
    rw [Statement.signsOfDefault, List.append_nil]
    apply (Takes.pairLeft series (.token List.mem_cons_self)).reading
    rintro _ ⟨before, rfl, read⟩
    exact ⟨_, _, rfl, read, rfl⟩
  | some body =>
    have last := takes_default ih default_wf.1 default_wf.2
    by_cases none : arms = []
    · subst none
      have alone : separated (.mark "newline")
          (Statement.signsOfArms [] ++ Statement.signsOfDefault (.some body)) =
          [[.mark "default"], [.mark ":"], Sign.body (Statement.signsOfEach body)].flatten := by
        simp [Statement.signsOfArms, Statement.signsOfDefault, separated]
      rw [alone]
      apply (Takes.pairRight ?_ (last.followed fun _ _ => trivial)).reading
      · rintro _ ⟨after, rfl, read⟩
        exact ⟨_, _, rfl, rfl, read⟩
      · apply (Leaves.split leaves_arm).mono
        rintro _ ⟨rest, rfl⟩
        exact clear_mark (by decide)
    · have newline : (languageParser tokens file).Takes n (token "newline") [.mark "newline"] _ _ :=
        .token rfl
      have series := takes_arms ih none wf
        (.dangling true newline (fun _ _ => trivial) leaves_arm)
      have parts : Statement.signsOfArms arms ≠ [] := by
        rw [signsOfArms_eq]
        exact fun empty => none (List.map_eq_nil_iff.mp empty)
      rw [Statement.signsOfDefault, separated_concat parts]
      apply Takes.reading (Takes.pairBoth series
        (fun _ _ => ⟨_, rfl, clear_mark (by decide)⟩) newline (fun _ _ => trivial)
        (last.followed fun _ _ => trivial))
      rintro _ ⟨before, after, rfl, read, more⟩
      exact ⟨_, _, rfl, read, more⟩

theorem takes_case {subject : Expression} {arms : List (Atom × List Statement)}
    {default : Option (List Statement)} (subject_wf : subject.WellFormed)
    (some : arms = [] → default ≠ none) (wf : Statement.ArmsWellFormed arms)
    (default_wf : Statement.PartWellFormed default) :
    (languageParser tokens file).Takes n (rule "case")
      (Statement.caseOf subject arms default).signs (fun _ => True)
      (fun tree => Statement.ofTree (.tagged "case" tree) =
        .ok (.caseOf subject arms default)) := by
  rw [Statement.signs]
  apply Takes.named rfl
  apply Takes.reading (TakesInTurn.sequence (.mark
    (.cons (takesExpressions subject subject_wf) (fun _ _ => clear_mark (by decide))
    (.mark (.cons (takes_cases ih some wf default_wf).required (fun _ _ => clear_mark (by decide))
    (.mark (.mark (.last (.token rfl)))))))))
  rintro _ ⟨_, rfl, _, _, rfl, value, _, rfl, read, _, _, rfl, _, _, rfl,
    ⟨left, right, rfl, read_arms, read_default⟩, _, _, rfl, _, _, rfl, _, rfl, -⟩
  simp only [Statement.ofTree, ok_bind, read, read_arms, read_default]
  rfl

end

/-! ## Statements -/

theorem takes_statement_as {statement : Statement} {inner : Rule} {sign : Sign} {more : List Sign}
    {follow : List Sign → Prop} (tag : String)
    (h : (languageParser tokens file).Takes n inner (sign :: more) follow
      (fun tree => Statement.ofTree (.tagged tag tree) = .ok statement))
    (member : (tag, inner) ∈ alternativesOf Language.statement)
    (unique : ∀ entry ∈ statementFirsts, sign.kind ∈ entry.2 → entry.1 = tag)
    (ends : ∀ rest, Clear statementContinues rest → follow rest) :
    (languageParser tokens file).Takes n Language.statement (sign :: more)
      (Clear statementContinues) (fun tree => Statement.ofTree tree = .ok statement) := by
  apply Takes.mono (Takes.alternative tag heads_statement member (by decide) unique h) ends
  rintro _ ⟨value, rfl, read⟩
  exact read

theorem takes_exprStatement {value : Expression} (term : value.IsTerm) (wf : value.WellFormed) :
    (languageParser tokens file).Takes n Language.statement value.signs
      (Clear statementContinues)
      (fun tree => Statement.ofTree tree = .ok (.expression value)) := by
  obtain ⟨sign, more, begins, start⟩ := signs_of_term term wf
  have unique : ∀ kind ∈ atomStarts, ∀ entry ∈ statementFirsts, kind ∈ entry.2 →
      entry.1 = "exprstmt" := by decide
  have takes : (languageParser tokens file).Takes n (rule "term") value.signs (Clear suffixStarts)
      (fun tree => Statement.ofTree (.tagged "exprstmt" tree) = .ok (.expression value)) := by
    apply (takes_term takesExpressions term wf).reading
    intro tree read
    rw [Statement.ofTree, read]
    rfl
  rw [begins] at takes ⊢
  exact takes_statement_as "exprstmt" takes (List.mem_of_getLast? rfl) (unique _ start)
    fun _ clear => clear.mono (by decide)

/-- Every statement that is written out is taken, however many rules are inside each other. -/
theorem takesStatements : TakesStatements tokens file n := by
  induction n with
  | zero => exact fun _ _ => .noRoom
  | succ n ih =>
    intro statement wf
    apply Takes.reference rfl
    have member (index : Nat) {alternative : String × Rule}
        (h : (alternativesOf Language.statement)[index]? = some alternative) :
        alternative ∈ alternativesOf Language.statement := List.mem_of_getElem? h
    cases statement with
    | ifThen condition body alternative =>
      obtain ⟨condition_wf, ⟨some, body_wf⟩, alternative_wf⟩ := wf
      exact takes_statement_as "if" (takes_if ih condition_wf some body_wf alternative_wf)
        (member 0 rfl) (by decide) fun _ _ => trivial
    | whileLoop condition body =>
      obtain ⟨condition_wf, some, body_wf⟩ := wf
      exact takes_statement_as "while" (takes_while ih condition_wf some body_wf)
        (member 1 rfl) (by decide) fun _ _ => trivial
    | forLoop counter start stop step body =>
      obtain ⟨start_wf, stop_wf, step_wf, some, body_wf⟩ := wf
      exact takes_statement_as "for" (takes_for ih start_wf stop_wf step_wf some body_wf)
        (member 2 rfl) (by decide) fun _ _ => trivial
    | caseOf subject arms default =>
      obtain ⟨subject_wf, some, arms_wf, default_wf⟩ := wf
      exact takes_statement_as "case" (takes_case ih subject_wf some arms_wf default_wf)
        (member 3 rfl) (by decide) fun _ _ => trivial
    | doUntil body condition =>
      obtain ⟨condition_wf, some, body_wf⟩ := wf
      exact takes_statement_as "do" (takes_do ih some body_wf condition_wf)
        (member 4 rfl) (by decide) fun _ clear => clear.mono (by decide)
    | set target value =>
      exact takes_statement_as "set" (takes_set wf.1 wf.2)
        (member 5 rfl) (by decide) fun _ clear => clear.mono (by decide)
    | input targets atom =>
      exact takes_statement_as "input" (takes_input wf.1 wf.2)
        (member 6 rfl) (by decide) fun _ clear => clear.mono (by decide)
    | output values atom =>
      exact takes_statement_as "output" (takes_output wf.1.1 wf.1.2 wf.2)
        (member 7 rfl) (by decide) fun _ clear => clear.mono (by decide)
    | openFile name path =>
      exact takes_statement_as "open" (takes_open name wf)
        (member 8 rfl) (by decide) fun _ _ => trivial
    | closeFile name =>
      exact takes_statement_as "close" (takes_close name)
        (member 9 rfl) (by decide) fun _ _ => trivial
    | expression value =>
      rw [Statement.signs]
      exact takes_exprStatement wf.1 wf.2

end PseudoLang
