import PseudoLang.Grammar.Language
import PseudoLang.Proofs.Grammar.Depth
import PseudoLang.Proofs.Grammar.Shape

/-!
The forms of the trees that the rules of the language give, rule by rule. The bound goes down where
an expression, a type or a statement is entered.
-/

namespace PseudoLang.Grammar.Language

open Precedence (Element OperatorTree)

variable {P : Terminal → Prop} {n : Nat} {tree : SyntaxTree}

/-- The trees of a rule of the language. -/
abbrev Of (P : Terminal → Prop) (n : Nat) (name : String) (tree : SyntaxTree) : Prop :=
  Shaped table P n (rule name) tree

/-- The tree of a token of the given kind. -/
abbrev TokenOf (P : Terminal → Prop) (kind : String) (tree : SyntaxTree) : Prop :=
  ∃ value, tree = .token kind value ∧ P (kind, value)

/-! ## Expressions -/

/-- An item of the flat sequence of an expression. -/
def Item (P : Terminal → Prop) (n : Nat) (item : SyntaxTree) : Prop :=
  (∃ value, item = .tagged "term" value ∧ Of P n "term" value) ∨
  (∃ value, item = .tagged "op" value ∧ TokenOf P "op" value) ∨
  ∃ value, item = .tagged "eq" value ∧ TokenOf P "=" value

theorem shape_items (h : Shaped table P n (.many (anyOf [("term", rule "term"), ("op", token "op"),
    ("eq", token "=")])) tree) :
    ∃ items, tree = .seq items ∧ ∀ item ∈ items, Item P n item := by
  obtain ⟨items, rfl, all⟩ := h.many
  refine ⟨items, rfl, ?_⟩
  intro item hi
  obtain ⟨tag, rule, value, member, rfl, shaped⟩ := (all item hi).choice
  simp only [List.mem_cons, Prod.mk.injEq, List.not_mem_nil, or_false] at member
  obtain ⟨rfl, rfl⟩ | ⟨rfl, rfl⟩ | ⟨rfl, rfl⟩ := member
  · exact .inl ⟨value, rfl, shaped⟩
  · exact .inr (.inl ⟨value, rfl, shaped.token⟩)
  · exact .inr (.inr ⟨value, rfl, shaped.token⟩)

theorem Item.term {item leaf : SyntaxTree} (h : Item P n item)
    (he : Grammar.Filter.elementOf item = .term leaf) :
    ∃ value, leaf = .tagged "term" value ∧ Of P n "term" value := by
  obtain ⟨value, rfl, shaped⟩ | ⟨_, rfl, value, rfl, -⟩ | ⟨_, rfl, value, rfl, -⟩ := h
  · cases he
    exact ⟨value, rfl, shaped⟩
  · cases he
  · cases he

/-- Terms joined by operators into their canonical tree. -/
theorem shape_expression (h : Of P (n + 1) "expr" tree) :
    ∃ operators : OperatorTree SyntaxTree, tree = Grammar.Filter.join operators ∧
      operators.Known .language ∧ operators.Canonical .language ∧
      ∀ leaf, .term leaf ∈ operators.walk →
        ∃ value, leaf = .tagged "term" value ∧ Of P n "term" value := by
  obtain ⟨filter, value, known, filtered, shaped⟩ := (h.reference rfl).filter
  obtain ⟨items, rfl, all⟩ := shape_items shaped
  cases known
  obtain ⟨-, _, operators, same, rfl, walk, knows, canonical⟩ :=
    Grammar.Filter.precedence_eq_ok filtered
  cases same
  refine ⟨operators, rfl, knows, canonical, ?_⟩
  intro leaf hl
  rw [walk, List.mem_map] at hl
  obtain ⟨source, hs, he⟩ := hl
  exact (all source hs).term he

/-- The same rule under another name. -/
theorem shape_condition (h : Of P n "condition" tree) : Of P n "expr" tree := by
  cases n with
  | zero => exact absurd h not_shaped_zero
  | succ n =>
    obtain ⟨m, terminals, less, all, chain, rule, resolved, derived⟩ := h.inner
    cases resolved
    exact ⟨m + 1, terminals, by omega, all, ["expr"], expression, rfl, derived⟩

theorem shape_term (h : Of P n "term" tree) :
    ∃ head suffixes, tree = .seq [head, .seq suffixes] ∧ Of P n "atom" head ∧
      ∀ suffix ∈ suffixes, Of P n "suffix" suffix := by
  obtain ⟨trees, rfl, parts⟩ := (h.body rfl).sequence
  obtain ⟨head, _, rfl, hh, _, _, rfl, hs, rfl⟩ := parts
  obtain ⟨suffixes, rfl, all⟩ := hs.many
  exact ⟨head, suffixes, rfl, hh, all⟩

theorem shape_subscript (h : Of P n "subscript" tree) : Of P n "expr" tree :=
  (h.body rfl).enclosed

theorem shape_call (h : Of P n "call" tree) :
    ∃ trees, tree = .seq trees ∧ ∀ tree ∈ trees, Of P n "expr" tree := (h.body rfl).listed

theorem shape_suffix (h : Of P n "suffix" tree) :
    (∃ value, tree = .tagged "subscript" value ∧ Of P n "expr" value) ∨
    ∃ trees, tree = .tagged "call" (.seq trees) ∧ ∀ tree ∈ trees, Of P n "expr" tree := by
  obtain ⟨tag, rule, value, member, rfl, shaped⟩ := (h.body rfl).choice
  simp only [List.mem_cons, Prod.mk.injEq, List.not_mem_nil, or_false] at member
  obtain ⟨rfl, rfl⟩ | ⟨rfl, rfl⟩ := member
  · exact .inl ⟨value, rfl, shape_subscript shaped⟩
  · obtain ⟨trees, rfl, all⟩ := shape_call shaped
    exact .inr ⟨trees, rfl, all⟩

/-- The tags of the atoms that are single tokens, and the kinds of these tokens. -/
def literals : List (String × String) :=
  [("name", "name"), ("num", "literal_num"), ("float", "literal_float"),
    ("string", "literal_string"), ("bool", "literal_bool")]

theorem shape_atom (h : Of P n "atom" tree) :
    (∃ value, tree = .tagged "group" value ∧ Of P n "expr" value) ∨
    (∃ trees, tree = .tagged "list" (.seq trees) ∧ ∀ tree ∈ trees, Of P n "expr" tree) ∨
    ∃ tag kind value, (tag, kind) ∈ literals ∧ tree = .tagged tag value ∧
      TokenOf P kind value := by
  obtain ⟨tag, rule, value, member, rfl, shaped⟩ := (h.body rfl).choice
  simp only [List.mem_cons, Prod.mk.injEq, List.not_mem_nil, or_false] at member
  obtain ⟨rfl, rfl⟩ | ⟨rfl, rfl⟩ | ⟨rfl, rfl⟩ | ⟨rfl, rfl⟩ | ⟨rfl, rfl⟩ | ⟨rfl, rfl⟩ |
    ⟨rfl, rfl⟩ := member
  · exact .inl ⟨value, rfl, shaped.enclosed⟩
  · obtain ⟨trees, rfl, all⟩ := shaped.listed
    exact .inr (.inl ⟨trees, rfl, all⟩)
  all_goals exact .inr (.inr ⟨_, _, value, by simp [literals], rfl, shaped.token⟩)

/-! ## Types and declarations -/

theorem shape_arraySuffix (h : Of P n "arraytypesuffix" tree) :
    tree = .seq [] ∨ ∃ size, tree = .seq [size] ∧ Of P n "expr" size :=
  (h.body rfl).enclosed.optional

/-- The tags of the types that are single keywords. -/
def plainTypes : List String := ["bool", "num", "float", "string", "InputFile", "OutputFile"]

theorem shape_procedureType (h : Of P n "proctype" tree) :
    ∃ keyword parameters, tree = .seq [keyword, .seq parameters] ∧
      ∀ parameter ∈ parameters, Of P n "proctypeparam" parameter := by
  obtain ⟨trees, rfl, parts⟩ := (h.body rfl).sequence
  obtain ⟨keyword, _, rfl, -, _, _, rfl, hp, rfl⟩ := parts
  obtain ⟨parameters, rfl, all⟩ := hp.listed
  exact ⟨keyword, parameters, rfl, all⟩

theorem shape_elementType (h : Of P (n + 1) "elementtype" tree) :
    (∃ tag ∈ plainTypes, ∃ value, tree = .tagged tag value ∧ TokenOf P tag value) ∨
    ∃ keyword parameters, tree = .tagged "proc" (.seq [keyword, .seq parameters]) ∧
      ∀ parameter ∈ parameters, Of P n "proctypeparam" parameter := by
  obtain ⟨tag, rule, value, member, rfl, shaped⟩ := (h.reference rfl).choice
  simp only [List.mem_cons, Prod.mk.injEq, List.not_mem_nil, or_false] at member
  obtain ⟨rfl, rfl⟩ | ⟨rfl, rfl⟩ | ⟨rfl, rfl⟩ | ⟨rfl, rfl⟩ | ⟨rfl, rfl⟩ | ⟨rfl, rfl⟩ |
    ⟨rfl, rfl⟩ := member
  case inr.inr.inr.inr.inr.inr =>
    obtain ⟨keyword, parameters, rfl, all⟩ := shape_procedureType shaped
    exact .inr ⟨keyword, parameters, rfl, all⟩
  all_goals exact .inl ⟨_, by simp [plainTypes], value, rfl, shaped.token⟩

theorem shape_procedureTypeParameter (h : Of P n "proctypeparam" tree) :
    ∃ element suffixes, tree = .seq [element, .seq suffixes] ∧ Of P n "elementtype" element ∧
      ∀ suffix ∈ suffixes, Of P n "arraytypesuffix" suffix := by
  obtain ⟨trees, rfl, parts⟩ := (h.body rfl).sequence
  obtain ⟨element, _, rfl, he, _, _, rfl, hs, rfl⟩ := parts
  obtain ⟨suffixes, rfl, all⟩ := hs.many
  exact ⟨element, suffixes, rfl, he, all⟩

theorem shape_predicate (h : Of P n "predicate" tree) :
    ∃ element name suffixes, tree = .seq [element, name, .seq suffixes] ∧
      Of P n "elementtype" element ∧ TokenOf P "name" name ∧
      ∀ suffix ∈ suffixes, Of P n "arraytypesuffix" suffix := by
  obtain ⟨trees, rfl, parts⟩ := (h.body rfl).sequence
  obtain ⟨element, _, rfl, he, name, _, rfl, hn, _, _, rfl, hs, rfl⟩ := parts
  obtain ⟨suffixes, rfl, all⟩ := hs.many
  exact ⟨element, name, suffixes, rfl, he, hn.token, all⟩

theorem shape_declarationLine (h : Of P n "decline" tree) :
    ∃ predicate initial, tree = .seq [predicate, initial] ∧ Of P n "predicate" predicate ∧
      (initial = .seq [] ∨
        ∃ sign value, initial = .seq [.seq [sign, value]] ∧ Of P n "expr" value) := by
  obtain ⟨trees, rfl, parts⟩ := (h.body rfl).sequence
  obtain ⟨predicate, _, rfl, hp, initial, _, rfl, hi, rfl⟩ := parts
  refine ⟨predicate, initial, rfl, hp, ?_⟩
  obtain rfl | ⟨value, rfl, shaped⟩ := hi.optional
  · exact .inl rfl
  · obtain ⟨_, rfl, sign, _, rfl, -, value, _, rfl, hv, rfl⟩ := shaped.sequence
    exact .inr ⟨sign, value, rfl, hv⟩

theorem shape_declarations (h : Of P n "declarations" tree) :
    ∃ keyword lines, tree = .seq [keyword, .seq lines] ∧ ∀ line ∈ lines, Of P n "decline" line := by
  obtain ⟨trees, rfl, parts⟩ := (h.body rfl).sequence
  obtain ⟨keyword, _, rfl, -, _, _, rfl, hl, rfl⟩ := parts
  obtain ⟨lines, rfl, all⟩ := hl.listed
  exact ⟨keyword, lines, rfl, all⟩

/-! ## Statements -/

theorem shape_body (h : Of P n "body" tree) :
    (∃ first rest, tree = .tagged "indented" (.seq (first :: rest)) ∧ Of P n "stmt" first ∧
      Alternating (Shaped table P n (token "newline")) (Of P n "stmt") rest) ∨
    ∃ value, tree = .tagged "unindented" value ∧ Of P n "stmt" value := by
  obtain ⟨tag, rule, value, member, rfl, shaped⟩ := (h.body rfl).choice
  simp only [List.mem_cons, Prod.mk.injEq, List.not_mem_nil, or_false] at member
  obtain ⟨rfl, rfl⟩ | ⟨rfl, rfl⟩ := member
  · obtain ⟨first, rest, rfl, hf, hr⟩ := shaped.enclosed.split
    exact .inl ⟨first, rest, rfl, hf, hr⟩
  · exact .inr ⟨value, rfl, shaped⟩

/-- The statements that have a rule of the same name as their tag. -/
def statementForms : List String :=
  ["if", "while", "for", "case", "do", "set", "input", "output", "open", "close"]

theorem shape_statement (h : Of P (n + 1) "stmt" tree) :
    (∃ name ∈ statementForms, ∃ value, tree = .tagged name value ∧ Of P n name value) ∨
    ∃ value, tree = .tagged "exprstmt" value ∧ Of P n "term" value := by
  obtain ⟨tag, rule, value, member, rfl, shaped⟩ := (h.reference rfl).choice
  simp only [List.mem_cons, Prod.mk.injEq, List.not_mem_nil, or_false] at member
  obtain ⟨rfl, rfl⟩ | ⟨rfl, rfl⟩ | ⟨rfl, rfl⟩ | ⟨rfl, rfl⟩ | ⟨rfl, rfl⟩ | ⟨rfl, rfl⟩ |
    ⟨rfl, rfl⟩ | ⟨rfl, rfl⟩ | ⟨rfl, rfl⟩ | ⟨rfl, rfl⟩ | ⟨rfl, rfl⟩ := member
  case inr.inr.inr.inr.inr.inr.inr.inr.inr.inr => exact .inr ⟨value, rfl, shaped⟩
  all_goals exact .inl ⟨_, by simp [statementForms], value, rfl, shaped⟩

theorem shape_else (h : Of P n "else" tree) :
    ∃ line keyword body, tree = .seq [line, keyword, body] ∧ Of P n "body" body := by
  obtain ⟨trees, rfl, parts⟩ := (h.body rfl).sequence
  obtain ⟨line, _, rfl, -, keyword, _, rfl, -, body, _, rfl, hb, rfl⟩ := parts
  exact ⟨line, keyword, body, rfl, hb⟩

theorem shape_if (h : Of P n "if" tree) :
    ∃ keyword condition word body alternative line last,
      tree = .seq [keyword, condition, word, body, alternative, line, last] ∧
      Of P n "expr" condition ∧ Of P n "body" body ∧
      (alternative = .seq [] ∨
        ∃ line keyword body, alternative = .seq [.seq [line, keyword, body]] ∧
          Of P n "body" body) := by
  obtain ⟨trees, rfl, parts⟩ := (h.body rfl).sequence
  obtain ⟨keyword, _, rfl, -, condition, _, rfl, hc, word, _, rfl, -, body, _, rfl, hb,
    alternative, _, rfl, ha, line, _, rfl, -, last, _, rfl, -, rfl⟩ := parts
  refine ⟨keyword, condition, word, body, alternative, line, last, rfl, shape_condition hc,
    hb.required, ?_⟩
  obtain rfl | ⟨clause, rfl, shaped⟩ := ha.optional
  · exact .inl rfl
  · obtain ⟨line, keyword, body, rfl, hb⟩ := shape_else shaped
    exact .inr ⟨line, keyword, body, rfl, hb⟩

theorem shape_while (h : Of P n "while" tree) :
    ∃ keyword condition body line last, tree = .seq [keyword, condition, body, line, last] ∧
      Of P n "expr" condition ∧ Of P n "body" body := by
  obtain ⟨trees, rfl, parts⟩ := (h.body rfl).sequence
  obtain ⟨keyword, _, rfl, -, condition, _, rfl, hc, body, _, rfl, hb, line, _, rfl, -, last, _,
    rfl, -, rfl⟩ := parts
  exact ⟨keyword, condition, body, line, last, rfl, shape_condition hc, hb.required⟩

theorem shape_for (h : Of P n "for" tree) :
    ∃ keyword counter sign start upTo stop stepWord step body line last,
      tree = .seq [keyword, counter, sign, start, upTo, stop, stepWord, step, body, line, last] ∧
      TokenOf P "name" counter ∧ Of P n "expr" start ∧ Of P n "expr" stop ∧
      Of P n "expr" step ∧ Of P n "body" body := by
  obtain ⟨trees, rfl, parts⟩ := (h.body rfl).sequence
  obtain ⟨keyword, _, rfl, -, counter, _, rfl, hn, sign, _, rfl, -, start, _, rfl, hs, upTo, _,
    rfl, -, stop, _, rfl, he, stepWord, _, rfl, -, step, _, rfl, hp, body, _, rfl, hb, line, _,
    rfl, -, last, _, rfl, -, rfl⟩ := parts
  exact ⟨keyword, counter, sign, start, upTo, stop, stepWord, step, body, line, last, rfl,
    hn.token, hs, he, hp, hb.required⟩

theorem shape_caseArm (h : Of P n "case_case" tree) :
    ∃ test sign body, tree = .seq [test, sign, body] ∧ Of P n "atom" test ∧
      Of P n "body" body := by
  obtain ⟨trees, rfl, parts⟩ := (h.body rfl).sequence
  obtain ⟨test, _, rfl, ht, sign, _, rfl, -, body, _, rfl, hb, rfl⟩ := parts
  exact ⟨test, sign, body, rfl, ht, hb⟩

theorem shape_defaultArm (h : Of P n "default_case" tree) :
    ∃ keyword sign body, tree = .seq [keyword, sign, body] ∧ Of P n "body" body := by
  obtain ⟨trees, rfl, parts⟩ := (h.body rfl).sequence
  obtain ⟨keyword, _, rfl, -, sign, _, rfl, -, body, _, rfl, hb, rfl⟩ := parts
  exact ⟨keyword, sign, body, rfl, hb⟩

theorem shape_case (h : Of P n "case" tree) :
    ∃ keyword subject opening arms default closing line last,
      tree = .seq [keyword, subject, opening, .pair arms default, closing, line, last] ∧
      Of P n "expr" subject ∧ (arms = none → default ≠ none) ∧
      (∀ series ∈ arms, ∃ first rest, series = .seq (first :: rest) ∧ Of P n "case_case" first ∧
        Alternating (Shaped table P n (token "newline")) (Of P n "case_case") rest) ∧
      ∀ arm ∈ default, Of P n "default_case" arm := by
  obtain ⟨trees, rfl, parts⟩ := (h.body rfl).sequence
  obtain ⟨keyword, _, rfl, -, subject, _, rfl, hs, opening, _, rfl, -, arms, _, rfl, ha, closing,
    _, rfl, -, line, _, rfl, -, last, _, rfl, -, rfl⟩ := parts
  obtain ⟨arms, default, rfl, some, hl, hr⟩ := ha.required.pair
  refine ⟨keyword, subject, opening, arms, default, closing, line, last, rfl, hs, some, ?_, hr⟩
  intro series hm
  exact (hl series hm).split

theorem shape_do (h : Of P n "do" tree) :
    ∃ keyword body line word condition, tree = .seq [keyword, body, line, word, condition] ∧
      Of P n "body" body ∧ Of P n "expr" condition := by
  obtain ⟨trees, rfl, parts⟩ := (h.body rfl).sequence
  obtain ⟨keyword, _, rfl, -, body, _, rfl, hb, line, _, rfl, -, word, _, rfl, -, condition, _,
    rfl, hc, rfl⟩ := parts
  exact ⟨keyword, body, line, word, condition, rfl, hb, shape_condition hc⟩

theorem shape_target (h : Of P n "lval" tree) :
    ∃ name subscripts, tree = .seq [name, .seq subscripts] ∧ TokenOf P "name" name ∧
      ∀ index ∈ subscripts, Of P n "expr" index := by
  obtain ⟨trees, rfl, parts⟩ := (h.body rfl).sequence
  obtain ⟨name, _, rfl, hn, _, _, rfl, hs, rfl⟩ := parts
  obtain ⟨subscripts, rfl, all⟩ := hs.many
  exact ⟨name, subscripts, rfl, hn.token, fun index hi => shape_subscript (all index hi)⟩

theorem shape_set (h : Of P n "set" tree) :
    ∃ keyword target sign value, tree = .seq [keyword, target, sign, value] ∧
      Of P n "lval" target ∧ Of P n "expr" value := by
  obtain ⟨trees, rfl, parts⟩ := (h.body rfl).sequence
  obtain ⟨keyword, _, rfl, -, target, _, rfl, ht, sign, _, rfl, -, value, _, rfl, hv, rfl⟩ := parts
  exact ⟨keyword, target, sign, value, rfl, ht, hv.required⟩

/-- A clause that names a file, or nothing. -/
def FileClause (P : Terminal → Prop) (n : Nat) (tree : SyntaxTree) : Prop :=
  tree = .seq [] ∨ ∃ word file, tree = .seq [.seq [word, file]] ∧ Of P n "atom" file

theorem shape_fileClause {word : String}
    (h : Shaped table P n (.optional (all [token word, rule "atom"])) tree) :
    FileClause P n tree := by
  obtain rfl | ⟨value, rfl, shaped⟩ := h.optional
  · exact .inl rfl
  · obtain ⟨_, rfl, word, _, rfl, -, file, _, rfl, hf, rfl⟩ := shaped.sequence
    exact .inr ⟨word, file, rfl, hf⟩

theorem shape_input (h : Of P n "input" tree) :
    ∃ keyword first rest file, tree = .seq [keyword, .seq (first :: rest), file] ∧
      TokenOf P "name" first ∧
      Alternating (Shaped table P n (token ",")) (Shaped table P n (token "name")) rest ∧
      FileClause P n file := by
  obtain ⟨trees, rfl, parts⟩ := (h.body rfl).sequence
  obtain ⟨keyword, _, rfl, -, _, _, rfl, hn, file, _, rfl, hf, rfl⟩ := parts
  obtain ⟨first, rest, rfl, hh, hr⟩ := hn.split
  exact ⟨keyword, first, rest, file, rfl, hh.token, hr, shape_fileClause hf⟩

theorem shape_output (h : Of P n "output" tree) :
    ∃ keyword first rest file, tree = .seq [keyword, .seq (first :: rest), file] ∧
      Of P n "expr" first ∧ Alternating (Shaped table P n (token ",")) (Of P n "expr") rest ∧
      FileClause P n file := by
  obtain ⟨trees, rfl, parts⟩ := (h.body rfl).sequence
  obtain ⟨keyword, _, rfl, -, _, _, rfl, hn, file, _, rfl, hf, rfl⟩ := parts
  obtain ⟨first, rest, rfl, hh, hr⟩ := hn.split
  exact ⟨keyword, first, rest, file, rfl, hh, hr, shape_fileClause hf⟩

theorem shape_open (h : Of P n "open" tree) :
    ∃ keyword name path, tree = .seq [keyword, name, path] ∧ TokenOf P "name" name ∧
      Of P n "atom" path := by
  obtain ⟨trees, rfl, parts⟩ := (h.body rfl).sequence
  obtain ⟨keyword, _, rfl, -, name, _, rfl, hn, path, _, rfl, hp, rfl⟩ := parts
  exact ⟨keyword, name, path, rfl, hn.token, hp⟩

theorem shape_close (h : Of P n "close" tree) :
    ∃ keyword name, tree = .seq [keyword, name] ∧ TokenOf P "name" name := by
  obtain ⟨trees, rfl, parts⟩ := (h.body rfl).sequence
  obtain ⟨keyword, _, rfl, -, name, _, rfl, hn, rfl⟩ := parts
  exact ⟨keyword, name, rfl, hn.token⟩

/-! ## Programs -/

theorem shape_mainBody (h : Of P n "mainbody" tree) :
    ∃ opening declarations first rest closing line,
      tree = .seq [opening, declarations, first, .seq rest, closing, line] ∧
      (declarations = .seq [] ∨
        ∃ part, declarations = .seq [part] ∧ Of P n "declarations" part) ∧
      (first = .seq [] ∨ ∃ statement, first = .seq [statement] ∧ Of P n "stmt" statement) ∧
      Alternating (Shaped table P n (token "newline")) (Of P n "stmt") rest := by
  obtain ⟨trees, rfl, parts⟩ := (h.body rfl).sequence
  obtain ⟨opening, _, rfl, -, declarations, _, rfl, hd, first, _, rfl, hf, _, _, rfl, hr, closing,
    _, rfl, -, line, _, rfl, -, rfl⟩ := parts
  obtain ⟨rest, rfl, statements⟩ := hr.cycle
  exact ⟨opening, declarations, first, rest, closing, line, rfl, hd.optional, hf.optional,
    statements⟩

theorem shape_start (h : Of P n "start" tree) :
    ∃ keyword body last, tree = .seq [keyword, body, last] ∧ Of P n "mainbody" body := by
  obtain ⟨trees, rfl, parts⟩ := (h.body rfl).sequence
  obtain ⟨keyword, _, rfl, -, body, _, rfl, hb, last, _, rfl, -, rfl⟩ := parts
  exact ⟨keyword, body, last, rfl, hb⟩

theorem shape_procedure (h : Of P n "procedure" tree) :
    ∃ name parameters body last, tree = .seq [name, .seq parameters, body, last] ∧
      TokenOf P "name" name ∧ (∀ parameter ∈ parameters, Of P n "predicate" parameter) ∧
      Of P n "mainbody" body := by
  obtain ⟨trees, rfl, parts⟩ := (h.body rfl).sequence
  obtain ⟨name, _, rfl, hn, _, _, rfl, hp, body, _, rfl, hb, last, _, rfl, -, rfl⟩ := parts
  obtain ⟨parameters, rfl, all⟩ := hp.listed
  exact ⟨name, parameters, body, last, rfl, hn.token, all, hb⟩

theorem shape_file (h : Of P n "file" tree) :
    ∃ items, tree = .seq items ∧ ∀ item ∈ items, ∃ value,
      item = .tagged "start" value ∧ Of P n "start" value ∨
      item = .tagged "procedure" value ∧ Of P n "procedure" value ∨
      item = .tagged "newline" value ∧ TokenOf P "newline" value := by
  obtain ⟨items, rfl, all⟩ := (h.body rfl).many
  refine ⟨items, rfl, ?_⟩
  intro item hi
  obtain ⟨tag, rule, value, member, rfl, shaped⟩ := (all item hi).choice
  simp only [List.mem_cons, Prod.mk.injEq, List.not_mem_nil, or_false] at member
  obtain ⟨rfl, rfl⟩ | ⟨rfl, rfl⟩ | ⟨rfl, rfl⟩ := member
  · exact ⟨value, .inl ⟨rfl, shaped⟩⟩
  · exact ⟨value, .inr (.inl ⟨rfl, shaped⟩)⟩
  · exact ⟨value, .inr (.inr ⟨rfl, shaped.token⟩)⟩

end PseudoLang.Grammar.Language
