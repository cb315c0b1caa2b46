import PseudoLang.Proofs.Language.Numbers
import PseudoLang.Proofs.Language.Rendering.Statements

/-!
Rule by rule, what is read from a tree holds the numbers among the tokens of the tree.
-/

namespace PseudoLang

open Grammar Grammar.Language
open Sign (between separated)

variable {n : Nat} {terminals : List Terminal} {tree : SyntaxTree}

/-! ## Expressions and declarations -/

theorem retains_expression (part : List Terminal) (tree : SyntaxTree)
    (h : Reading n (rule "expr") part tree) :
    Retains Expression.ofTree Expression.signs part tree :=
  retains_of_rereads (rereads_expression n part tree h)

/-- The same rule under another name. -/
theorem retains_condition (h : Reading n (rule "condition") terminals tree) :
    Retains Expression.ofTree Expression.signs terminals tree := by
  obtain ⟨m, less, all, chain, rule, resolved, derived⟩ := h.rule
  cases resolved
  exact retains_expression terminals tree
    ⟨m + 1, Nat.lt_succ_self _, all, ["expr"], expression, rfl, derived⟩

theorem retains_atom (h : Reading n (rule "atom") terminals tree) :
    Retains Atom.ofTree Atom.signs terminals tree :=
  retains_of_rereads (rereads_atom (rereads_expression n) h)

theorem retains_term (h : Reading n (rule "term") terminals tree) :
    Retains Expression.ofTerm Expression.signs terminals tree :=
  retains_of_rereads (rereads_term (rereads_expression n) h)

theorem retains_arraySuffix (part : List Terminal) (tree : SyntaxTree)
    (h : Reading n (rule "arraytypesuffix") part tree) :
    Retains ArraySuffix.ofTree ArraySuffix.signs part tree := by
  obtain ⟨opening, inside, closing, before, after, rfl, opens, size, closes⟩ :=
    (h.body rfl).enclosed
  refine (retains_part size retains_expression).bind fun size retained => .ok ?_
  exact .between (by decide) opens closes retained

theorem retains_arraySuffixes (h : Reading n (.many (rule "arraytypesuffix")) terminals tree) :
    Retains ArraySuffix.ofSeries (List.flatMap ArraySuffix.signs) terminals tree := by
  obtain ⟨trees, rfl, retained⟩ := retains_many h retains_arraySuffix
  exact retained

theorem retains_elementType (n : Nat) (terminals : List Terminal) (tree : SyntaxTree)
    (h : Reading n (rule "elementtype") terminals tree) :
    Retains ElementType.ofTree ElementType.signs terminals tree := by
  induction n generalizing terminals tree with
  | zero => exact absurd h not_yields_zero
  | succ n ih =>
    obtain ⟨tag, inner, value, member, rfl, derived⟩ := (h.reference rfl).choice
    simp only [List.mem_cons, Prod.mk.injEq, List.not_mem_nil, or_false] at member
    obtain ⟨rfl, rfl⟩ | ⟨rfl, rfl⟩ | ⟨rfl, rfl⟩ | ⟨rfl, rfl⟩ | ⟨rfl, rfl⟩ | ⟨rfl, rfl⟩ |
      ⟨rfl, rfl⟩ := member
    case inr.inr.inr.inr.inr.inr =>
      obtain ⟨_, rfl, parts⟩ := (derived.body rfl).sequence
      obtain ⟨word, _, keyword, _, rfl, rfl, hw, listed, _, parameters, _, rfl, rfl, hp, rfl,
        rfl⟩ := parts
      have each : ∀ part tree, Reading n (rule "proctypeparam") part tree →
          Retains ElementType.ofParameter (fun parameter =>
            [parameter.1.signs, parameter.2.flatMap ArraySuffix.signs].flatten) part tree := by
        intro part tree one
        obtain ⟨_, rfl, parts⟩ := (one.body rfl).sequence
        obtain ⟨first, _, element, _, rfl, rfl, he, rest, _, suffixes, _, rfl, rfl, hs, rfl,
          rfl⟩ := parts
        refine (ih first element he).bind fun element element_retained => ?_
        refine (retains_arraySuffixes hs).bind fun suffixes suffixes_retained => .ok ?_
        exact .cons element_retained (.cons suffixes_retained .nil)
      obtain ⟨trees, rfl, retained⟩ := retains_listed hp (by decide) each
      rw [Retains, ElementType.ofTree, ElementType.ofParameters_eq]
      refine retained.bind fun parameters parameters_retained => .ok ?_
      rw [ElementType.signs, ElementType.signsOfEach_eq]
      exact .cons (numbered_token hw (by decide)) (.cons parameters_retained .nil)
    all_goals exact .ok (numbered_token derived (by decide))

theorem retains_predicate (part : List Terminal) (tree : SyntaxTree)
    (h : Reading n (rule "predicate") part tree) :
    Retains Predicate.ofTree Predicate.signs part tree := by
  obtain ⟨_, rfl, parts⟩ := (h.body rfl).sequence
  obtain ⟨type, _, element, _, rfl, rfl, he, name, _, named, _, rfl, rfl, hn, last, _, suffixes, _,
    rfl, rfl, hs, rfl, rfl⟩ := parts
  obtain ⟨text, rfl, rfl, -⟩ := hn.token
  rw [Retains, Predicate.ofTree, SyntaxTree.text, ok_bind]
  refine (retains_elementType n type element he).bind fun element element_retained => ?_
  refine (retains_arraySuffixes hs).bind fun suffixes suffixes_retained => .ok ?_
  exact .cons element_retained
    (.cons (numbered_name text hn) (.cons suffixes_retained .nil))

theorem retains_declaration (part : List Terminal) (tree : SyntaxTree)
    (h : Reading n (rule "decline") part tree) :
    Retains Declaration.ofTree Declaration.signs part tree := by
  obtain ⟨_, rfl, parts⟩ := (h.body rfl).sequence
  obtain ⟨type, _, predicate, _, rfl, rfl, hp, value, _, initial, _, rfl, rfl, hi, rfl, rfl⟩ :=
    parts
  have assigned : ∀ part tree, Reading n (all [token "=", rule "expr"]) part tree →
      Retains Declaration.initialOf (fun value => [[.mark "="], value.signs].flatten) part
        tree := by
    intro part tree one
    obtain ⟨_, rfl, parts⟩ := one.sequence
    obtain ⟨sign, _, equals, _, rfl, rfl, hs, last, _, value, _, rfl, rfl, hv, rfl, rfl⟩ := parts
    exact fun value reads => .cons (numbered_token hs (by decide))
      (.cons (retains_expression _ _ hv value reads) .nil)
  refine (retains_part hi assigned).bind fun initial initial_retained => ?_
  refine (retains_predicate type predicate hp).bind fun predicate predicate_retained => .ok ?_
  exact .cons predicate_retained (.cons initial_retained .nil)

theorem retains_lines (part : List Terminal) (tree : SyntaxTree)
    (h : Reading n (rule "declarations") part tree) :
    Retains Declaration.ofLines (fun lines => (lines.map Declaration.signs).flatten) part tree := by
  obtain ⟨_, rfl, parts⟩ := (h.body rfl).sequence
  obtain ⟨word, _, keyword, _, rfl, rfl, hw, listed, _, lines, _, rfl, rfl, hl, rfl, rfl⟩ := parts
  obtain ⟨trees, rfl, retained⟩ := retains_listed hl (by decide) retains_declaration
  intro lines reads
  have word_none : Numbered [] word := .none rfl (numerals_token hw (by decide))
  have inside : Numbered (lines.map Declaration.signs).flatten listed := by
    refine .congr ?_ (retained lines reads)
    rw [Sign.numbers_between (by decide) (by decide), Sign.numbers_separated (by decide)]
  simpa using word_none.append (inside.append .nil)

/-! ## Actions -/

theorem retains_clause {word name : String} (other : isNumberKind word = false)
    (h : Reading n (.optional (all [token word, rule "atom"])) terminals tree) :
    Gives (tree.part name (Atom.ofClause name)) fun file =>
      Numbered (Atom.clause word file) terminals := by
  refine retains_part h fun part tree one => ?_
  obtain ⟨_, rfl, parts⟩ := one.sequence
  obtain ⟨first, _, keyword, _, rfl, rfl, hw, last, _, file, _, rfl, rfl, hf, rfl, rfl⟩ := parts
  exact fun atom reads => .cons (numbered_token hw ⟨other, other⟩)
    (.cons (retains_atom hf atom reads) .nil)

theorem retains_subscript (part : List Terminal) (tree : SyntaxTree)
    (h : Reading n (rule "subscript") part tree) :
    Retains Expression.ofTree subscriptSigns part tree := by
  obtain ⟨opening, inside, closing, before, after, rfl, opens, index, closes⟩ :=
    (h.body rfl).enclosed
  exact fun value reads =>
    .between (by decide) opens closes (retains_expression inside tree index value reads)

theorem retains_target (h : Reading n (rule "lval") terminals tree) :
    Retains Target.ofTree Target.signs terminals tree := by
  obtain ⟨_, rfl, parts⟩ := (h.body rfl).sequence
  obtain ⟨name, _, head, _, rfl, rfl, hn, rest, _, subscripts, _, rfl, rfl, hs, rfl, rfl⟩ := parts
  obtain ⟨text, rfl, rfl, -⟩ := hn.token
  obtain ⟨trees, rfl, retained⟩ := retains_many hs retains_subscript
  rw [Retains, Target.ofTree, SyntaxTree.text, ok_bind, SyntaxTree.items, ok_bind,
    Expression.ofTrees_eq]
  refine retained.bind fun indices indices_retained => .ok ?_
  rw [Target.signs_ofParts, List.flatMap_def]
  exact .cons (numbered_name text hn) (.cons indices_retained .nil)

theorem retains_name (part : List Terminal) (tree : SyntaxTree)
    (h : Reading n (token "name") part tree) :
    Retains (SyntaxTree.text "input") (fun text => [.name text]) part tree := by
  obtain ⟨text, rfl, rfl, -⟩ := h.token
  exact .ok (numbered_name text h)

/-! ## Statements -/

section

variable (ih : ∀ part tree, Reading n (rule "stmt") part tree →
  Retains Statement.ofTree Statement.signs part tree)

include ih

/-- Layout does not matter, so that a statement alone is like a body. -/
theorem retains_body (h : Reading n (rule "body") terminals tree) :
    Retains Statement.ofBody (fun body => Sign.body (Statement.signsOfEach body)) terminals
      tree := by
  obtain ⟨tag, inner, value, member, rfl, derived⟩ := (h.body rfl).choice
  simp only [List.mem_cons, Prod.mk.injEq, List.not_mem_nil, or_false] at member
  obtain ⟨rfl, rfl⟩ | ⟨rfl, rfl⟩ := member
  · obtain ⟨opening, inside, closing, before, after, rfl, opens, statements, closes⟩ :=
      derived.enclosed
    obtain ⟨trees, rfl, retained⟩ := retains_series statements (by decide) ih
    rw [Retains, Statement.ofBody, Statement.ofSeries_eq]
    intro body reads
    rw [Statement.signsOfEach_eq]
    exact .between (by decide) opens closes (retained body reads)
  · refine (ih _ _ derived).bind fun statement retained => .ok ?_
    refine .congr Sign.numbers_body (.congr ?_ retained)
    rw [Statement.signsOfEach, Statement.signsOfEach, List.flatten_singleton]

theorem retains_alternative (h : Reading n (.optional (rule "else")) terminals tree) :
    Retains Statement.ofAlternative Statement.signsOfAlternative terminals tree := by
  obtain ⟨rfl, rfl⟩ | ⟨clause, rfl, derived⟩ := h.optional
  · exact .ok .nil
  · obtain ⟨_, rfl, parts⟩ := (derived.body rfl).sequence
    obtain ⟨first, _, line, _, rfl, rfl, hl, second, _, keyword, _, rfl, rfl, hk, last, _, body, _,
      rfl, rfl, hb, rfl, rfl⟩ := parts
    refine (retains_body ih hb).bind fun body body_retained => .ok ?_
    exact .cons (numbered_token hl (by decide))
      (.cons (numbered_token hk (by decide)) (.cons body_retained .nil))

theorem retains_arm (part : List Terminal) (tree : SyntaxTree)
    (h : Reading n (rule "case_case") part tree) :
    Retains Statement.ofArm armSigns part tree := by
  obtain ⟨_, rfl, parts⟩ := (h.body rfl).sequence
  obtain ⟨first, _, test, _, rfl, rfl, ht, second, _, sign, _, rfl, rfl, hs, last, _, body, _,
    rfl, rfl, hb, rfl, rfl⟩ := parts
  rw [Retains, Statement.ofArm]
  refine (retains_atom ht).bind fun test test_retained => ?_
  refine (retains_body ih hb).bind fun body body_retained => .ok ?_
  exact .cons test_retained (.cons (numbered_token hs (by decide)) (.cons body_retained .nil))

theorem retains_arms {error : Option String}
    (h : Reading n (.split (rule "case_case") (token "newline") error) terminals tree) :
    Gives (Statement.ofArms (some tree)) fun arms =>
      Numbered (Statement.signsOfArms arms).flatten terminals := by
  obtain ⟨trees, rfl, retained⟩ := retains_series h (by decide) (retains_arm ih)
  rw [Statement.ofArms, Statement.ofArmSeries_eq]
  intro arms reads
  rw [signsOfArms_eq]
  exact .congr (Sign.numbers_separated (by decide)).symm (retained arms reads)

theorem retains_default (h : Reading n (rule "default_case") terminals tree) :
    Gives (Statement.ofDefault (some tree)) fun body =>
      Numbered (Statement.signsOfDefault body).flatten terminals := by
  obtain ⟨_, rfl, parts⟩ := (h.body rfl).sequence
  obtain ⟨first, _, keyword, _, rfl, rfl, hk, second, _, sign, _, rfl, rfl, hs, last, _, body, _,
    rfl, rfl, hb, rfl, rfl⟩ := parts
  rw [Statement.ofDefault]
  refine (retains_body ih hb).bind fun body body_retained => .ok ?_
  rw [Statement.signsOfDefault, List.flatten_singleton]
  exact .cons (numbered_token hk (by decide))
    (.cons (numbered_token hs (by decide)) (.cons body_retained .nil))

/-- The cases of a `case` statement and its default, of which one may be left out. -/
theorem retains_cases {error : Option String} (h : Reading n (.pair
      (.split (rule "case_case") (token "newline") error) (token "newline") (rule "default_case"))
      terminals tree) :
    ∃ left right, tree = .pair left right ∧ Gives (Statement.ofArms left) fun arms =>
      Gives (Statement.ofDefault right) fun default =>
        Numbered (Statement.signsOfArms arms ++ Statement.signsOfDefault default).flatten
          terminals := by
  obtain ⟨value, rfl, derived⟩ | ⟨value, rfl, derived⟩ | ⟨first, middle, last, before, between,
    after, rfl, rfl, hb, hm, ha⟩ := h.pair
  · exact ⟨none, some value, rfl, .ok (retains_default ih derived)⟩
  · refine ⟨some value, none, rfl, fun arms reads => .ok ?_⟩
    simpa [Statement.signsOfDefault] using retains_arms ih derived arms reads
  · refine ⟨some before, some after, rfl, fun arms reads default default_reads => ?_⟩
    have middle_none : Numbered [] middle := .none rfl (numerals_token hm (by decide))
    have arms_retained := retains_arms ih hb arms reads
    have default_retained := retains_default ih ha default default_reads
    simpa using arms_retained.append (middle_none.append default_retained)

theorem retains_if (h : Reading n (rule "if") terminals tree) :
    Retains (fun value => Statement.ofTree (.tagged "if" value)) Statement.signs terminals
      tree := by
  obtain ⟨_, rfl, parts⟩ := (h.body rfl).sequence
  obtain ⟨_, _, keyword, _, rfl, rfl, hk, _, _, condition, _, rfl, rfl, hc, _, _, word, _, rfl,
    rfl, hw, _, _, body, _, rfl, rfl, hb, _, _, alternative, _, rfl, rfl, ha, _, _, line, _, rfl,
    rfl, hl, _, _, last, _, rfl, rfl, he, rfl, rfl⟩ := parts
  rw [Retains, Statement.ofTree]
  refine (retains_alternative ih ha).bind fun alternative alternative_retained => ?_
  refine (retains_condition hc).bind fun condition condition_retained => ?_
  refine (retains_body ih hb.required).bind fun body body_retained => .ok ?_
  rw [Statement.signs]
  exact .cons (numbered_token hk (by decide)) <| .cons condition_retained <|
    .cons (numbered_token hw (by decide)) <| .cons body_retained <|
    .cons alternative_retained <| .cons (numbered_optional hl (by decide)) <|
    .cons (numbered_token he (by decide)) .nil

theorem retains_while (h : Reading n (rule "while") terminals tree) :
    Retains (fun value => Statement.ofTree (.tagged "while" value)) Statement.signs terminals
      tree := by
  obtain ⟨_, rfl, parts⟩ := (h.body rfl).sequence
  obtain ⟨_, _, keyword, _, rfl, rfl, hk, _, _, condition, _, rfl, rfl, hc, _, _, body, _, rfl,
    rfl, hb, _, _, line, _, rfl, rfl, hl, _, _, last, _, rfl, rfl, he, rfl, rfl⟩ := parts
  rw [Retains, Statement.ofTree]
  refine (retains_condition hc).bind fun condition condition_retained => ?_
  refine (retains_body ih hb.required).bind fun body body_retained => .ok ?_
  rw [Statement.signs]
  exact .cons (numbered_token hk (by decide)) <| .cons condition_retained <|
    .cons body_retained <| .cons (numbered_optional hl (by decide)) <|
    .cons (numbered_token he (by decide)) .nil

theorem retains_for (h : Reading n (rule "for") terminals tree) :
    Retains (fun value => Statement.ofTree (.tagged "for" value)) Statement.signs terminals
      tree := by
  obtain ⟨_, rfl, parts⟩ := (h.body rfl).sequence
  obtain ⟨_, _, keyword, _, rfl, rfl, hk, _, _, counter, _, rfl, rfl, hn, _, _, sign, _, rfl, rfl,
    hs, _, _, start, _, rfl, rfl, hstart, _, _, upTo, _, rfl, rfl, hu, _, _, stop, _, rfl, rfl,
    hstop, _, _, by_word, _, rfl, rfl, hw, _, _, step, _, rfl, rfl, hstep, _, _, body, _, rfl, rfl,
    hb, _, _, line, _, rfl, rfl, hl, _, _, last, _, rfl, rfl, he, rfl, rfl⟩ := parts
  obtain ⟨text, rfl, rfl, -⟩ := hn.token
  rw [Retains, Statement.ofTree, SyntaxTree.text, ok_bind]
  refine (retains_expression _ _ hstart).bind fun start start_retained => ?_
  refine (retains_expression _ _ hstop).bind fun stop stop_retained => ?_
  refine (retains_expression _ _ hstep).bind fun step step_retained => ?_
  refine (retains_body ih hb.required).bind fun body body_retained => .ok ?_
  rw [Statement.signs]
  exact .cons (numbered_token hk (by decide)) <| .cons (numbered_name text hn) <|
    .cons (numbered_token hs (by decide)) <| .cons start_retained <|
    .cons (numbered_token hu (by decide)) <| .cons stop_retained <|
    .cons (numbered_token hw (by decide)) <| .cons step_retained <| .cons body_retained <|
    .cons (numbered_optional hl (by decide)) <| .cons (numbered_token he (by decide)) .nil

theorem retains_case (h : Reading n (rule "case") terminals tree) :
    Retains (fun value => Statement.ofTree (.tagged "case" value)) Statement.signs terminals
      tree := by
  obtain ⟨_, rfl, parts⟩ := (h.body rfl).sequence
  obtain ⟨_, _, keyword, _, rfl, rfl, hk, _, _, subject, _, rfl, rfl, hs, _, _, opening, _, rfl,
    rfl, ho, _, _, cases, _, rfl, rfl, hc, _, _, closing, _, rfl, rfl, hd, _, _, line, _, rfl, rfl,
    hl, _, _, last, _, rfl, rfl, he, rfl, rfl⟩ := parts
  obtain ⟨left, right, rfl, cases_retained⟩ := retains_cases ih hc.required
  rw [Retains, Statement.ofTree]
  refine cases_retained.bind fun arms arms_retained => ?_
  refine arms_retained.bind fun default default_retained => ?_
  refine (retains_expression _ _ hs).bind fun subject subject_retained => .ok ?_
  rw [Statement.signs]
  exact .cons (numbered_token hk (by decide)) <| .cons subject_retained <|
    .cons (numbered_token ho (by decide)) <|
    .cons (.congr (Sign.numbers_separated (by decide)) default_retained) <|
    .cons (numbered_token hd (by decide)) <| .cons (numbered_token hl (by decide)) <|
    .cons (numbered_token he (by decide)) .nil

theorem retains_do (h : Reading n (rule "do") terminals tree) :
    Retains (fun value => Statement.ofTree (.tagged "do" value)) Statement.signs terminals
      tree := by
  obtain ⟨_, rfl, parts⟩ := (h.body rfl).sequence
  obtain ⟨_, _, keyword, _, rfl, rfl, hk, _, _, body, _, rfl, rfl, hb, _, _, line, _, rfl, rfl, hl,
    _, _, word, _, rfl, rfl, hw, _, _, condition, _, rfl, rfl, hc, rfl, rfl⟩ := parts
  rw [Retains, Statement.ofTree]
  refine (retains_body ih hb).bind fun body body_retained => ?_
  refine (retains_condition hc).bind fun condition condition_retained => .ok ?_
  rw [Statement.signs]
  exact .cons (numbered_token hk (by decide)) <| .cons body_retained <|
    .cons (numbered_token hl (by decide)) <| .cons (numbered_token hw (by decide)) <|
    .cons condition_retained .nil

omit ih

theorem retains_set (h : Reading n (rule "set") terminals tree) :
    Retains (fun value => Statement.ofTree (.tagged "set" value)) Statement.signs terminals
      tree := by
  obtain ⟨_, rfl, parts⟩ := (h.body rfl).sequence
  obtain ⟨_, _, keyword, _, rfl, rfl, hk, _, _, target, _, rfl, rfl, ht, _, _, sign, _, rfl, rfl,
    hs, _, _, value, _, rfl, rfl, hv, rfl, rfl⟩ := parts
  rw [Retains, Statement.ofTree]
  refine (retains_target ht).bind fun target target_retained => ?_
  refine (retains_expression _ _ hv.required).bind fun value value_retained => .ok ?_
  rw [Statement.signs]
  exact .cons (numbered_token hk (by decide)) <| .cons target_retained <|
    .cons (numbered_token hs (by decide)) <| .cons value_retained .nil

theorem retains_input (h : Reading n (rule "input") terminals tree) :
    Retains (fun value => Statement.ofTree (.tagged "input" value)) Statement.signs terminals
      tree := by
  obtain ⟨_, rfl, parts⟩ := (h.body rfl).sequence
  obtain ⟨_, _, keyword, _, rfl, rfl, hk, _, _, names, _, rfl, rfl, hn, _, _, file, _, rfl, rfl,
    hf, rfl, rfl⟩ := parts
  obtain ⟨trees, rfl, retained⟩ := retains_series hn (by decide) retains_name
  rw [Retains, Statement.ofTree, SyntaxTree.items, ok_bind]
  refine retained.bind fun names names_retained => ?_
  refine (retains_clause (by decide) hf).bind fun file file_retained => .ok ?_
  rw [Statement.signs]
  exact .cons (numbered_token hk (by decide)) <| .cons names_retained <|
    .cons file_retained .nil

theorem retains_output (h : Reading n (rule "output") terminals tree) :
    Retains (fun value => Statement.ofTree (.tagged "output" value)) Statement.signs terminals
      tree := by
  obtain ⟨_, rfl, parts⟩ := (h.body rfl).sequence
  obtain ⟨_, _, keyword, _, rfl, rfl, hk, _, _, values, _, rfl, rfl, hv, _, _, file, _, rfl, rfl,
    hf, rfl, rfl⟩ := parts
  obtain ⟨trees, rfl, retained⟩ := retains_series hv (by decide) retains_expression
  rw [Retains, Statement.ofTree, SyntaxTree.items, ok_bind, Expression.ofTrees_eq]
  refine retained.bind fun values values_retained => ?_
  refine (retains_clause (by decide) hf).bind fun file file_retained => .ok ?_
  rw [Statement.signs]
  exact .cons (numbered_token hk (by decide)) <| .cons values_retained <|
    .cons file_retained .nil

theorem retains_open (h : Reading n (rule "open") terminals tree) :
    Retains (fun value => Statement.ofTree (.tagged "open" value)) Statement.signs terminals
      tree := by
  obtain ⟨_, rfl, parts⟩ := (h.body rfl).sequence
  obtain ⟨_, _, keyword, _, rfl, rfl, hk, _, _, name, _, rfl, rfl, hn, _, _, path, _, rfl, rfl,
    hp, rfl, rfl⟩ := parts
  obtain ⟨text, rfl, rfl, -⟩ := hn.token
  rw [Retains, Statement.ofTree, SyntaxTree.text, ok_bind]
  refine (retains_atom hp).bind fun path path_retained => .ok ?_
  rw [Statement.signs]
  exact .cons (numbered_token hk (by decide)) <| .cons (numbered_name text hn) <|
    .cons path_retained .nil

theorem retains_close (h : Reading n (rule "close") terminals tree) :
    Retains (fun value => Statement.ofTree (.tagged "close" value)) Statement.signs terminals
      tree := by
  obtain ⟨_, rfl, parts⟩ := (h.body rfl).sequence
  obtain ⟨_, _, keyword, _, rfl, rfl, hk, _, _, name, _, rfl, rfl, hn, rfl, rfl⟩ := parts
  obtain ⟨text, rfl, rfl, -⟩ := hn.token
  rw [Retains, Statement.ofTree]
  refine .ok ?_
  rw [Statement.signs]
  exact .cons (numbered_token hk (by decide)) (.cons (numbered_name text hn) .nil)

end

theorem retains_statement (part : List Terminal) (tree : SyntaxTree)
    (h : Reading n (rule "stmt") part tree) :
    Retains Statement.ofTree Statement.signs part tree := by
  induction n generalizing part tree with
  | zero => exact absurd h not_yields_zero
  | succ n ih =>
    obtain ⟨tag, inner, value, member, rfl, derived⟩ := (h.reference rfl).choice
    simp only [List.mem_cons, Prod.mk.injEq, List.not_mem_nil, or_false] at member
    obtain ⟨rfl, rfl⟩ | ⟨rfl, rfl⟩ | ⟨rfl, rfl⟩ | ⟨rfl, rfl⟩ | ⟨rfl, rfl⟩ | ⟨rfl, rfl⟩ |
      ⟨rfl, rfl⟩ | ⟨rfl, rfl⟩ | ⟨rfl, rfl⟩ | ⟨rfl, rfl⟩ | ⟨rfl, rfl⟩ := member
    · exact retains_if ih derived
    · exact retains_while ih derived
    · exact retains_for ih derived
    · exact retains_case ih derived
    · exact retains_do ih derived
    · exact retains_set derived
    · exact retains_input derived
    · exact retains_output derived
    · exact retains_open derived
    · exact retains_close derived
    · rw [Retains, Statement.ofTree]
      refine (retains_term derived).bind fun term retained => .ok ?_
      rw [Statement.signs]
      exact retained

end PseudoLang
