import PseudoLang.Proofs.Grammar.Frontier
import PseudoLang.Proofs.Language.Parse
import PseudoLang.Proofs.Token.Stream

/-!
Parsing loses no token. The delimiters that are not kept in the tree are fixed by the grammar, so
that the tokens of a source can be told from its tree.
-/

namespace PseudoLang

open Grammar Grammar.Language

/-- The tokens of a source, by name and text, as its tree tells them. -/
def SyntaxTree.terminals (tree : SyntaxTree) : List Terminal :=
  frontier table maxDepth (rule "file") tree

theorem traceable_table : table.Traceable := by
  simp [Table.Traceable, Rule.TraceableAlternatives, Rule.Traceable, Rule.TraceableAll, Rule.Fixed,
    table, file, start, procedure, mainBody, declarations, declarationLine, predicate,
    arraySuffix, elementType, procedureType, procedureTypeParameter, body, statement, ifStatement,
    elseClause, whileStatement, forStatement, caseStatement, caseArm, defaultArm, doStatement,
    setStatement, inputStatement, outputStatement, openStatement, closeStatement, assignmentTarget,
    subscript, expression, term, suffix, call, atom, rule, token, expect, all, anyOf, enclosed,
    listed, series, openKinds, endKind]
  rintro tag rule (⟨rfl, rfl⟩ | ⟨rfl, rfl⟩ | ⟨rfl, rfl⟩) <;> simp [Operand]

/-! ## The tokens of a source -/

theorem fixedText_keywords :
    ∀ word ∈ Vocabulary.language.keywords, fixedText word = word ∧ word ≠ "op" := by
  decide +kernel

theorem fixedText_punctuation :
    ∀ sign ∈ Lexeme.punctuation, fixedText (String.ofList sign.1) = String.ofList sign.1 ∧
      String.ofList sign.1 ≠ "op" := by
  decide +kernel

theorem operators_ne_equals :
    (∀ word ∈ Vocabulary.language.operators, word ≠ "=") ∧
    ∀ sign ∈ Lexeme.punctuation, sign.2 = .operator → String.ofList sign.1 ≠ "=" := by
  decide +kernel

theorem plain_open (kind value : String) (h : kind ∈ openKinds) (hn : kind ≠ "op") :
    Terminal.Plain (kind, value) :=
  ⟨fun closed => absurd h closed, fun op => absurd op hn⟩

theorem plain_fixed (kind : String) (hn : kind ≠ "op") : Terminal.Plain (kind, fixedText kind) :=
  ⟨fun _ => rfl, fun op => absurd op hn⟩

theorem plain_operator {value : String} (h : value ≠ "=") : Terminal.Plain ("op", value) :=
  ⟨fun closed => absurd (show "op" ∈ openKinds by decide) closed, fun _ => h⟩

theorem plain_of_writes {kind : Token.Kind} {value : String}
    (h : Vocabulary.language.Writes kind value) :
    Terminal.Plain (Token.typeNameOf kind value, value) := by
  cases kind with
  | keyword =>
    obtain ⟨fixed, named⟩ := fixedText_keywords value h
    exact ⟨fun _ => fixed.symm, fun op => absurd op named⟩
  | symbol =>
    obtain ⟨sign, member, rfl⟩ := h
    obtain ⟨fixed, named⟩ := fixedText_punctuation _ member
    exact ⟨fun _ => fixed.symm, fun op => absurd op named⟩
  | operator =>
    obtain word | ⟨sign, member, rfl⟩ := h
    · exact plain_operator (operators_ne_equals.1 value word)
    · exact plain_operator (operators_ne_equals.2 _ member rfl)
  | name => exact plain_open "name" value (by decide) (by decide)
  | number => exact plain_open "literal_num" value (by decide) (by decide)
  | float => exact plain_open "literal_float" value (by decide) (by decide)
  | string => exact plain_open "literal_string" value (by decide) (by decide)
  | bool => exact plain_open "literal_bool" value (by decide) (by decide)
  | eof | indent | dedent | newline => exact h.elim

theorem plain_of_layout {kind : Token.Kind} (h : kind ∈ Layout.kinds) :
    Terminal.Plain (Token.typeNameOf kind (Token.layoutValue kind), Token.layoutValue kind) := by
  simp only [Layout.kinds, List.mem_cons, List.not_mem_nil, or_false] at h
  obtain rfl | rfl | rfl := h
  · exact plain_fixed "indent" (by decide)
  · exact plain_fixed "dedent" (by decide)
  · exact plain_fixed "newline" (by decide)

theorem plain_of_written {token : Token} (h : token.Written .language) : token.terminal.Plain := by
  obtain ⟨kind, value, span⟩ := token
  obtain written | ⟨member, text⟩ := h
  · exact plain_of_writes written
  · have text : value = Token.layoutValue kind := text
    subst text
    exact plain_of_layout member

theorem ne_eof_of_written {vocabulary : Vocabulary} {token : Token}
    (h : token.Written vocabulary) : token.kind ≠ .eof := by
  intro ends
  obtain written | ⟨member, -⟩ := h
  · rw [ends] at written
    exact written
  · rw [ends] at member
    exact absurd member (by decide)

/-! ## Nothing is lost -/

variable {source file other : String} {tokens : Array Token} {tree : SyntaxTree}

theorem terminal_of_eof {token : Token} (ends : token.kind = .eof) (empty : token.value = "") :
    token.terminal = (endKind, "") := by
  rw [Token.terminal, Token.typeName, ends, empty]
  rfl

/-- A parse stops at the end of the source, neither before nor after it. -/
theorem content_of_spans {content : List Token} {last : Token} {stop : Nat}
    {terminals : List Terminal} (whole : tokens.toList = content ++ [last])
    (ends : last.kind = .eof) (empty : last.value = "")
    (written : ∀ token ∈ content, token.Written .language)
    (spans : (languageParser tokens other).Spans 0 stop terminals)
    (derived : Derives table maxDepth (rule "file") terminals tree)
    (stops : ∀ token, tokens[stop]? = some token → token.kind = .eof) :
    stop = content.length ∧ terminals = content.map Token.terminal ∧
      tree.terminals = terminals := by
  have last_terminal := terminal_of_eof ends empty
  have taken : terminals = ((content ++ [last]).take stop).map Token.terminal := by
    rw [spans.terminals_eq, Parser.between, ← whole]
    simp [languageParser]
  have plain : ∀ terminal ∈ terminals, terminal.Plain := by
    intro terminal member
    rw [taken] at member
    obtain ⟨token, within, rfl⟩ := List.mem_map.mp member
    obtain within | within := List.mem_append.mp (List.mem_of_mem_take within)
    · exact plain_of_written (written token within)
    · rw [List.mem_singleton.mp within, last_terminal]
      exact plain_fixed endKind (by decide)
  obtain ⟨here, inside⟩ := retraces traceable_table (rule "file") _ _ trivial plain derived
  have not_before : ¬ stop < content.length := by
    intro before
    have present : tokens[stop]? = some content[stop] := by
      rw [← Array.getElem?_toList, whole, List.getElem?_append_left before,
        List.getElem?_eq_getElem before]
    exact ne_eof_of_written (written _ (List.getElem_mem before)) (stops _ present)
  have not_after : ¬ content.length < stop := by
    intro after
    have all : (content ++ [last]).take stop = content ++ [last] :=
      List.take_of_length_le (by rw [List.length_append]; exact after)
    have member : last.terminal ∈ terminals := by
      rw [taken, all]
      exact List.mem_map_of_mem (by simp)
    exact inside _ member (by rw [last_terminal])
  have at_end : stop = content.length := by omega
  rw [at_end, List.take_left] at taken
  exact ⟨at_end, taken, here⟩

/-- The tree of a source is derived from all of its tokens but the end of the source. -/
theorem derives_content (ht : tokenize source file = .ok tokens)
    (hp : parse tokens other = .ok tree) :
    ∃ terminals, tokens.toList.map Token.terminal = terminals ++ [(endKind, "")] ∧
      Derives table maxDepth (rule "file") terminals tree ∧ tree.terminals = terminals := by
  obtain ⟨content, last, whole, ends, empty, written⟩ := tokenize_eq_ok ht
  obtain ⟨stop, terminals, spans, derived, stops⟩ := derives_of_parse hp
  obtain ⟨-, taken, here⟩ := content_of_spans whole ends empty written spans derived stops
  refine ⟨terminals, ?_, derived, here⟩
  rw [whole, List.map_append, List.map_singleton, terminal_of_eof ends empty, ← taken]

/-- The tokens of a source are those of its tree, and the end of the source. -/
theorem terminals_of_parse (ht : tokenize source file = .ok tokens)
    (hp : parse tokens other = .ok tree) :
    tokens.toList.map Token.terminal = tree.terminals ++ [(endKind, "")] := by
  obtain ⟨terminals, whole, -, here⟩ := derives_content ht hp
  rw [whole, here]

/-- Every token is in the tree of its source, once and in order; hence sources with the same tree
have the same tokens. -/
theorem parse_lossless (ht : tokenize source file = .ok tokens)
    (hp : parse tokens other = .ok tree) :
    tokens.toList.map Token.terminal = tree.terminals ++ [(endKind, "")] ∧
    ∀ {source' file' other' : String} {tokens' : Array Token},
      tokenize source' file' = .ok tokens' → parse tokens' other' = .ok tree →
      tokens'.toList.map Token.terminal = tokens.toList.map Token.terminal := by
  have first := terminals_of_parse ht hp
  constructor
  · exact first
  · intro source' file' other' tokens' ht' hp'
    rw [first, terminals_of_parse ht' hp']

/-- A call with a list, in whose tree neither brackets nor commas are kept. -/
def listCall : String := "start\n\tf([a, 1])\nend"

theorem parse_lossless_listCall : ∃ tokens tree, tokenize listCall = .ok tokens ∧
    parse tokens = .ok tree ∧
    tokens.toList.map Token.terminal = tree.terminals ++ [(endKind, "")] ∧
    ∀ {source' file' other' : String} {tokens' : Array Token},
      tokenize source' file' = .ok tokens' → parse tokens' other' = .ok tree →
      tokens'.toList.map Token.terminal = tokens.toList.map Token.terminal := by
  have parses : (match tokenize listCall with
      | .ok tokens => (parse tokens).isOk
      | .error _ => false) = true := by decide +kernel
  split at parses
  · rename_i tokens ht
    cases hp : parse tokens with
    | error halt =>
      rw [hp] at parses
      cases parses
    | ok tree => exact ⟨tokens, tree, ht, hp, parse_lossless ht hp⟩
  · cases parses

end PseudoLang
