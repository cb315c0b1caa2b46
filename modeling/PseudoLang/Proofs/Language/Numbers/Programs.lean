import PseudoLang.Proofs.Language.Invariants
import PseudoLang.Proofs.Language.Numbers.Statements
import PseudoLang.Proofs.Token.Number

/-!
No number is lost on the way from a source to its program, and none is made up. Entries and
procedures are kept apart in a program, so that its numbers may come in another order than they have
in the source. An integer that is too large is the only thing that stands in the way of a program
for a source that parses (`readSource_numbers`).
-/

namespace PseudoLang

open Grammar Grammar.Language
open Number (ofDigits)
open Sign (separated)

variable {n : Nat} {terminals : List Terminal} {tree : SyntaxTree}

/-! ## Blocks -/

theorem Block.numbers_content (declarations : List Declaration) (statements : List Statement) :
    Sign.numbers (Block.content declarations statements) =
      Sign.numbers ((declarations.map Declaration.signs).flatten ++
        (statements.map Statement.signs).flatten) := by
  cases declarations with
  | nil => exact Sign.numbers_separated (by decide)
  | cons first more =>
    have lines : (statements.flatMap fun statement => .mark "newline" :: statement.signs) =
        (statements.map Statement.signs).flatMap (.mark "newline" :: ·) := by
      rw [List.flatMap_map]
    rw [Block.content, Sign.numbers_mark (by decide), Sign.numbers_append,
      Sign.numbers_between (by decide) (by decide), Sign.numbers_separated (by decide),
      lines, Sign.numbers_after (by decide), Sign.numbers_append]
    exact List.cons_ne_nil first more

/-- Statements on lines of their own. -/
theorem retains_rest (h : Reading n (.cycle [token "newline", rule "stmt"]) terminals tree) :
    ∃ trees, tree = .seq trees ∧ Gives (Statement.ofSeries (trees.drop 1)) fun statements =>
      Numbered (statements.map Statement.signs).flatten terminals := by
  obtain ⟨rounds, trees, items, rfl, rfl, interleaved, yields⟩ := h.cycle
  have each := yields.imp fun part tree after =>
    retains_after after (by decide) fun part => retains_statement part tree
  refine ⟨trees, rfl, ?_⟩
  rw [Statement.ofSeries_eq]
  cases interleaved with
  | nil => exact retains_each each
  | cons interleaved =>
    rw [List.drop_one, List.tail_cons, primaries_of_interleaved interleaved]
    exact retains_each each

theorem retains_block (h : Reading n (rule "mainbody") terminals tree) :
    Retains Block.ofTree Block.signs terminals tree := by
  obtain ⟨_, rfl, parts⟩ := (h.body rfl).sequence
  obtain ⟨_, _, opening, _, rfl, rfl, ho, declared, _, declarations, _, rfl, rfl, hd, beginning, _,
    first, _, rfl, rfl, hf, later, _, rest, _, rfl, rfl, hr, _, _, closing, _, rfl, rfl, hc, _, _,
    line, _, rfl, rfl, hl, rfl, rfl⟩ := parts
  obtain ⟨trees, rfl, rest_retained⟩ := retains_rest hr
  rw [Retains, Block.ofTree]
  refine (retains_part hd retains_lines).bind fun declarations declarations_retained => ?_
  refine (retains_part hf retains_statement).bind fun first first_retained => ?_
  refine rest_retained.bind fun rest rest_retained => .ok ?_
  have content : Numbered (Block.content (declarations.getD []) (first.toList ++ rest))
      (declared ++ (beginning ++ later)) := by
    refine .congr ((Block.numbers_content _ _).trans ?_)
      (declarations_retained.append (first_retained.append rest_retained))
    cases declarations <;> cases first <;> simp
  have whole : Numbered (Block.signs ⟨declarations.getD [], first.toList ++ rest⟩) _ :=
    .cons (numbered_token ho (by decide)) <| .cons content <|
    .cons (numbered_token hc (by decide)) <| .cons (numbered_token hl (by decide)) .nil
  simpa only [List.append_assoc] using whole

/-! ## Programs -/

theorem retains_entry (h : Reading n (rule "start") terminals tree) :
    Retains Block.ofEntry Block.entry terminals tree := by
  obtain ⟨_, rfl, parts⟩ := (h.body rfl).sequence
  obtain ⟨_, _, keyword, _, rfl, rfl, hk, _, _, body, _, rfl, rfl, hb, _, _, last, _, rfl, rfl,
    he, rfl, rfl⟩ := parts
  intro block reads
  exact .cons (numbered_token hk (by decide))
    (.cons (retains_block hb block reads) (.cons (numbered_token he (by decide)) .nil))

theorem retains_procedure (h : Reading n (rule "procedure") terminals tree) :
    Retains Procedure.ofTree Procedure.signs terminals tree := by
  obtain ⟨_, rfl, parts⟩ := (h.body rfl).sequence
  obtain ⟨_, _, name, _, rfl, rfl, hn, _, _, parameters, _, rfl, rfl, hp, _, _, body, _, rfl, rfl,
    hb, _, _, last, _, rfl, rfl, he, rfl, rfl⟩ := parts
  obtain ⟨text, rfl, rfl, -⟩ := hn.token
  obtain ⟨trees, rfl, retained⟩ := retains_listed hp (by decide) retains_predicate
  rw [Retains, Procedure.ofTree, SyntaxTree.text, ok_bind, SyntaxTree.items, ok_bind]
  refine retained.bind fun parameters parameters_retained => ?_
  refine (retains_block hb).bind fun body body_retained => .ok ?_
  exact .cons (numbered_name text hn) <| .cons parameters_retained <| .cons body_retained <|
    .cons (numbered_token he (by decide)) .nil

/-- The numbers of a program are written as those among the tokens, in some order. -/
def Collects (program : Program) (terminals : List Terminal) : Prop :=
  ∃ numbers, (Sign.numbers program.signs).Perm numbers ∧
    List.Forall₂ Sign.Matches numbers (numerals terminals)

theorem Program.numbers_signs (program : Program) : Sign.numbers program.signs =
    Sign.numbers (program.entries.map Block.entry).flatten ++
      Sign.numbers (program.procedures.map Procedure.signs).flatten := by
  rw [Program.signs, Sign.numbers_append, Sign.numbers_separated (by decide), List.flatten_append,
    Sign.numbers_append]
  exact List.append_nil _

variable {program : Program} {part : List Terminal}

theorem Collects.entry {block : Block} (h : Collects program terminals)
    (hb : Numbered block.entry part) :
    Collects ⟨program.entries ++ [block], program.procedures⟩ (terminals ++ part) := by
  obtain ⟨numbers, same, matched⟩ := h
  refine ⟨numbers ++ Sign.numbers block.entry, ?_, ?_⟩
  · rw [Program.numbers_signs] at same ⊢
    rw [List.map_append, List.flatten_append, Sign.numbers_append, List.map_singleton,
      List.flatten_singleton, List.append_assoc]
    exact ((List.perm_append_comm.append_left _).trans (.of_eq (List.append_assoc ..).symm)).trans
      (same.append_right _)
  · rw [numerals_append]
    exact List.rel_append matched hb

theorem Collects.procedure {procedure : Procedure} (h : Collects program terminals)
    (hp : Numbered procedure.signs part) :
    Collects ⟨program.entries, program.procedures ++ [procedure]⟩ (terminals ++ part) := by
  obtain ⟨numbers, same, matched⟩ := h
  refine ⟨numbers ++ Sign.numbers procedure.signs, ?_, ?_⟩
  · rw [Program.numbers_signs] at same ⊢
    rw [List.map_append, List.flatten_append, Sign.numbers_append, List.map_singleton,
      List.flatten_singleton, ← List.append_assoc]
    exact same.append_right _
  · rw [numerals_append]
    exact List.rel_append matched hp

theorem collects_item {item : SyntaxTree} (h : Reading n (anyOf [("start", rule "start"),
      ("procedure", rule "procedure"), ("newline", token "newline")]) part item)
    (collected : Collects program terminals) :
    Gives (program.add item) fun program => Collects program (terminals ++ part) := by
  obtain ⟨tag, inner, value, alternative, rfl, derived⟩ := h.choice
  simp only [List.mem_cons, Prod.mk.injEq, List.not_mem_nil, or_false] at alternative
  obtain ⟨rfl, rfl⟩ | ⟨rfl, rfl⟩ | ⟨rfl, rfl⟩ := alternative
  · exact (retains_entry derived).bind fun block retained => .ok (collected.entry retained)
  · exact (retains_procedure derived).bind fun procedure retained =>
      .ok (collected.procedure retained)
  · obtain ⟨numbers, same, matched⟩ := collected
    refine .ok ⟨numbers, same, ?_⟩
    rwa [numerals_append, numerals_token derived (by decide), List.append_nil]

theorem collects_items {parts : List (List Terminal)} {items : List SyntaxTree}
    (h : List.Forall₂ (Reading n (anyOf [("start", rule "start"),
      ("procedure", rule "procedure"), ("newline", token "newline")])) parts items)
    (collected : Collects program terminals) :
    Gives (items.foldlM Program.add program) fun program =>
      Collects program (terminals ++ parts.flatten) := by
  induction h generalizing program terminals with
  | nil =>
    rw [List.flatten_nil, List.append_nil]
    exact .ok collected
  | cons here _ ih =>
    rw [List.foldlM_cons, List.flatten_cons, ← List.append_assoc]
    exact (collects_item here collected).bind fun _ => ih

theorem collects_file (h : Reading n (rule "file") terminals tree) :
    Gives (Program.ofTree tree) fun program => Collects program terminals := by
  obtain ⟨parts, items, rfl, rfl, each⟩ := (h.body rfl).many
  intro program reads
  unfold Program.ofTree at reads
  split at reads
  · cases reads
  · have none : Collects ⟨[], []⟩ [] := by
      refine ⟨[], ?_, .nil⟩
      rw [Program.numbers_signs]
      exact .refl []
    exact collects_items each none program reads

/-! ## Numbers of a source -/

/-- The value of an integer literal. -/
def Sign.num? : Sign → Option Int64
  | num value => some value
  | _ => none

/-- The value of a floating-point literal. -/
def Sign.float? : Sign → Option Number.Binary64
  | float value => some value
  | _ => none

/-- The integers of a program, as it is written. -/
def Program.nums (program : Program) : List Int64 := program.signs.filterMap Sign.num?

/-- The floating-point numbers of a program, as it is written. -/
def Program.floats (program : Program) : List Number.Binary64 := program.signs.filterMap Sign.float?

/-- The tokens of a kind. -/
def ofKind (kind : Token.Kind) (tokens : List Token) : List Token := tokens.filter (·.kind == kind)

def Token.isNumber (token : Token) : Bool := token.kind == .number || token.kind == .float

theorem ofKind_isNumber {kind : Token.Kind} (number : kind = .number ∨ kind = .float)
    (tokens : List Token) : ofKind kind (tokens.filter Token.isNumber) = ofKind kind tokens := by
  rw [ofKind, List.filter_filter]
  refine List.filter_congr fun token _ => ?_
  by_cases same : token.kind = kind
  · simp [Token.isNumber, same, number]
  · simp [same]

namespace Sign

/-- The literal has the value of the token. -/
def StandsFor (sign : Sign) (token : Token) : Prop :=
  (token.kind = .number ∧ ∃ value, sign = num value ∧
      value.toInt = ofDigits token.value.toList) ∨
    token.kind = .float ∧ ∃ value, sign = float value ∧
      Number.Binary64.read? token.value = some value

variable {sign : Sign}

theorem eq_of_isNumberKind (h : isNumberKind sign.kind = true) :
    sign = mark sign.kind ∨ (∃ value, sign = num value) ∨ ∃ value, sign = float value := by
  cases sign with
  | mark kind => exact .inl rfl
  | num value => exact .inr (.inl ⟨value, rfl⟩)
  | float value => exact .inr (.inr ⟨value, rfl⟩)
  | operator text => by_cases equals : text = "=" <;> simp [kind, isNumberKind, equals] at h
  | _ => simp [kind, isNumberKind] at h

variable {token : Token}

/-- No sign that goes by its kind alone is written as a number. -/
theorem eq_of_matches (h : sign.Matches token.terminal)
    (number : isNumberKind token.typeName = true)
    (text : ¬ token.value = fixedText token.typeName) :
    (∃ value, sign = num value) ∨ ∃ value, sign = float value := by
  obtain ⟨named, -, fixed⟩ := h
  have named : token.typeName = sign.kind := named
  rw [named] at number text
  obtain same | number := eq_of_isNumberKind number
  · rw [same] at fixed
    exact absurd (fixed _ rfl) text
  · exact number

theorem standsFor_number (h : sign.Matches token.terminal) (number : token.kind = .number)
    (text : NumberText token.kind token.value) : sign.StandsFor token := by
  have named : token.typeName = "literal_num" := by rw [Token.typeName, number, Token.typeNameOf]
  obtain ⟨-, digits⟩ := text.number number
  obtain ⟨value, rfl⟩ | ⟨value, rfl⟩ := eq_of_matches h (by rw [named]; decide) (by
    rw [named]
    intro other
    rw [other] at digits
    exact absurd (List.all_eq_true.mpr digits) (by decide))
  · exact .inl ⟨number, value, rfl, Number.toInt_of_readInt64? digits h.2.1⟩
  · have other : token.typeName = "literal_float" := h.1
    rw [named] at other
    exact absurd other (by decide)

theorem standsFor_float (h : sign.Matches token.terminal) (number : token.kind = .float)
    (text : NumberText token.kind token.value) : sign.StandsFor token := by
  have named : token.typeName = "literal_float" := by rw [Token.typeName, number, Token.typeNameOf]
  obtain ⟨whole, decimals, same, -⟩ := text.float number
  obtain ⟨value, rfl⟩ | ⟨value, rfl⟩ := eq_of_matches h (by rw [named]; decide) (by
    rw [named, same]
    intro other
    have point : '.' ∈ (fixedText "literal_float").toList := by rw [← other]; simp
    exact absurd point (by decide))
  · have other : token.typeName = "literal_num" := h.1
    rw [named] at other
    exact absurd other (by decide)
  · exact .inr ⟨number, value, rfl, h.2.1⟩

end Sign

/-- The numbers of a source, in the order of its tokens. -/
theorem standFor_of_matches {tokens : List Token} {numbers : List Sign}
    (h : List.Forall₂ Sign.Matches numbers (numerals (tokens.map Token.terminal)))
    (known : ∀ token ∈ tokens, token.kind = .eof ∨ token.Written .language)
    (texts : ∀ token ∈ tokens, NumberText token.kind token.value) :
    List.Forall₂ Sign.StandsFor numbers (tokens.filter Token.isNumber) := by
  induction tokens generalizing numbers with
  | nil =>
    cases h
    exact .nil
  | cons token tokens ih =>
    obtain ⟨token_known, known⟩ := List.forall_mem_cons.mp known
    obtain ⟨text, texts⟩ := List.forall_mem_cons.mp texts
    rw [List.map_cons] at h
    by_cases number : token.kind = .number ∨ token.kind = .float
    · have named : isNumberKind token.terminal.1 = true := by
        obtain number | float := number
        · simp [Token.terminal, Token.typeName, Token.typeNameOf, number, isNumberKind]
        · simp [Token.terminal, Token.typeName, Token.typeNameOf, float, isNumberKind]
      rw [numerals_cons named] at h
      obtain _ | ⟨here, rest⟩ := h
      rw [List.filter_cons_of_pos (by simpa [Token.isNumber] using number)]
      refine .cons ?_ (ih rest known texts)
      obtain number | float := number
      · exact Sign.standsFor_number here number text
      · exact Sign.standsFor_float here float text
    · have named : isNumberKind token.terminal.1 = false := by
        rw [isNumberKind, Bool.or_eq_false_iff, beq_eq_false_iff_ne, beq_eq_false_iff_ne]
        exact ⟨mt (typeName_eq_iff token_known .number (by decide)).mp (not_or.mp number).1,
          mt (typeName_eq_iff token_known .float (by decide)).mp (not_or.mp number).2⟩
      rw [numerals_cons_of_other named] at h
      rw [List.filter_cons_of_neg (by simpa [Token.isNumber] using number)]
      exact ih h known texts

theorem numbers_of_standFor {tokens : List Token} {numbers : List Sign}
    (h : List.Forall₂ Sign.StandsFor numbers tokens) :
    (numbers.filterMap Sign.num?).map Int64.toInt =
        (ofKind .number tokens).map (fun token => (ofDigits token.value.toList : Int)) ∧
      (numbers.filterMap Sign.float?).map some =
        (ofKind .float tokens).map (Number.Binary64.read? ·.value) := by
  induction h with
  | nil => exact ⟨rfl, rfl⟩
  | cons here _ ih =>
    obtain ⟨kind, value, rfl, same⟩ | ⟨kind, value, rfl, same⟩ := here
    · simpa [ofKind, kind, List.filterMap_cons, Sign.num?, Sign.float?, same] using ih
    · simpa [ofKind, kind, List.filterMap_cons, Sign.num?, Sign.float?, same] using ih

/-- What a sign that is no number has not, is the same in a list without such signs. -/
theorem filterMap_numbers {α : Type} {value? : Sign → Option α}
    (other : ∀ sign, isNumberKind sign.kind = false → value? sign = none) (signs : List Sign) :
    (Sign.numbers signs).filterMap value? = signs.filterMap value? := by
  rw [Sign.numbers, List.filterMap_filter]
  congr 1
  funext sign
  split
  · rfl
  · rename_i not_number
    exact (other sign (by simpa using not_number)).symm

/-! ## The only reason against a program -/

variable {source file : String} {tokens : Array Token}

/-- What becomes of a source that parses. -/
theorem readSource_of_parse (ht : tokenize source file = .ok tokens)
    (hp : parse tokens file = .ok tree) :
    readSource source file =
      (Program.ofTree tree).mapError fun cause => .error (Error.nowhere cause) := by
  rw [readSource, ht]
  show readTokens tokens file = _
  rw [readTokens, hp]
  rfl

/-- An integer that is too large for 64 bits with a sign. -/
def Token.TooLarge (token : Token) : Prop :=
  token.kind = .number ∧ 2 ^ 63 - 1 < ofDigits token.value.toList

theorem read_of_numberText {kind : Token.Kind} {value : String} (h : NumberText kind value)
    (number : kind = .float) : ∃ found, Number.Binary64.read? value = some found := by
  obtain ⟨whole, decimals, rfl, some, hw, hd⟩ := h.float number
  exact ⟨_, Number.Binary64.read?_pointed some hw hd⟩

/-- The literals of a program have the values of the number tokens, in some order. -/
theorem standFor_of_ofTree {program : Program} (ht : tokenize source file = .ok tokens)
    (hp : parse tokens file = .ok tree) (reads : Program.ofTree tree = .ok program) :
    ∃ numbers, (Sign.numbers program.signs).Perm numbers ∧
      List.Forall₂ Sign.StandsFor numbers (tokens.toList.filter Token.isNumber) := by
  obtain ⟨terminals, whole, reading, -⟩ := reading_of_parse ht hp
  obtain ⟨numbers, same, matched⟩ := collects_file reading program reads
  refine ⟨numbers, same, standFor_of_matches ?_ (fun token member => ?_) fun token member => ?_⟩
  · -- the end of the source is no number
    rw [whole, numerals_append, numerals_cons_of_other (by decide)]
    simpa [numerals] using matched
  · exact eof_or_written ht token (Array.mem_toList_iff.mp member)
  · exact numberText_of_tokenize ht token (Array.mem_toList_iff.mp member)

theorem numbers_of_ofTree {program : Program} (ht : tokenize source file = .ok tokens)
    (hp : parse tokens file = .ok tree) (reads : Program.ofTree tree = .ok program) :
    (program.nums.map Int64.toInt).Perm ((ofKind .number tokens.toList).map
        fun token => (ofDigits token.value.toList : Int)) ∧
      (program.floats.map some).Perm ((ofKind .float tokens.toList).map
        (Number.Binary64.read? ·.value)) := by
  obtain ⟨numbers, same, values⟩ := standFor_of_ofTree ht hp reads
  obtain ⟨nums, floats⟩ := numbers_of_standFor values
  rw [ofKind_isNumber (.inl rfl)] at nums
  rw [ofKind_isNumber (.inr rfl)] at floats
  rw [Program.nums, Program.floats, ← nums, ← floats]
  constructor
  · rw [← @filterMap_numbers _ Sign.num?]
    · exact (same.filterMap _).map _
    · rintro (_ | _ | _ | _ | _ | _ | _ | _) h <;> first | rfl | cases h
  · rw [← @filterMap_numbers _ Sign.float?]
    · exact (same.filterMap _).map _
    · rintro (_ | _ | _ | _ | _ | _ | _ | _) h <;> first | rfl | cases h

/-- A program has no integer that is too large. -/
theorem not_tooLarge_of_ofTree {program : Program} (ht : tokenize source file = .ok tokens)
    (hp : parse tokens file = .ok tree) (reads : Program.ofTree tree = .ok program) :
    ∀ token ∈ tokens, ¬ token.TooLarge := by
  rintro token member ⟨number, large⟩
  obtain ⟨nums, -⟩ := numbers_of_ofTree ht hp reads
  have here : token ∈ ofKind .number tokens.toList :=
    List.mem_filter.mpr ⟨Array.mem_toList_iff.mpr member, by simp [number]⟩
  obtain ⟨value, -, same⟩ := List.mem_map.mp (nums.symm.subset (List.mem_map_of_mem here))
  have small := Int64.toInt_lt value
  omega

theorem readable_of_parse (ht : tokenize source file = .ok tokens)
    (hp : parse tokens file = .ok tree) :
    (∃ program, Program.ofTree tree = .ok program) ∨
      ∃ token ∈ tokens, token.TooLarge ∧
        Program.ofTree tree = .error (.numberParseError token.value) := by
  obtain ⟨terminals, whole, derived, -⟩ := derives_content ht hp
  have taken : ∀ terminal ∈ terminals, ∃ token ∈ tokens, token.terminal = terminal := by
    intro terminal member
    have member : terminal ∈ tokens.toList.map Token.terminal :=
      whole ▸ List.mem_append_left _ member
    simpa using member
  have shaped : Of (fun terminal => ∃ token ∈ tokens, token.terminal = terminal) (maxDepth + 1)
      "file" tree := ⟨maxDepth, terminals, Nat.lt_succ_self _, taken, derived⟩
  obtain read | ⟨_, ⟨token, member, rfl⟩, unreadable, -, failed⟩ :=
    (readable_file shaped (ofTree_of_parse hp).1).ok_or_unreadable
  · exact .inl read
  · have known := eof_or_written ht token member
    have text := numberText_of_tokenize ht token member
    obtain ⟨named, absent⟩ | ⟨named, absent⟩ := unreadable
    · have number := (typeName_eq_iff known .number (by decide)).mp named
      obtain ⟨nonempty, digits⟩ := text.number number
      have absent : Number.readInt64? token.value = none := absent
      rw [Number.readInt64?_digits digits nonempty] at absent
      refine .inr ⟨token, member, ⟨number, ?_⟩, failed⟩
      by_contra fits
      rw [if_pos (Nat.not_lt.mp fits)] at absent
      cases absent
    · obtain ⟨value, read⟩ :=
        read_of_numberText text ((typeName_eq_iff known .float (by decide)).mp named)
      have absent : Number.Binary64.read? token.value = none := absent
      rw [read] at absent
      cases absent

/-- A source that parses has a program, unless an integer in it is too large, which is then the
error. The integers of the program are the values of the integer tokens, one for each, and its
floating-point numbers those of the others. -/
theorem readSource_numbers (ht : tokenize source file = .ok tokens)
    (hp : parse tokens file = .ok tree) :
    ((∃ program, readSource source file = .ok program) ↔
      ∀ token ∈ tokens, token.kind = .number → ofDigits token.value.toList ≤ 2 ^ 63 - 1) ∧
    (∀ failure, readSource source file = .error failure →
      ∃ token ∈ tokens, token.TooLarge ∧
        failure = .error (.nowhere (.numberParseError token.value))) ∧
    (∀ token ∈ tokens, token.kind = .float →
      ∃ value, Number.Binary64.read? token.value = some value) ∧
    ∀ program, readSource source file = .ok program →
      (program.nums.map Int64.toInt).Perm ((ofKind .number tokens.toList).map
        fun token => (ofDigits token.value.toList : Int)) ∧
      (program.floats.map some).Perm ((ofKind .float tokens.toList).map
        (Number.Binary64.read? ·.value)) := by
  have reads := readSource_of_parse ht hp
  have accepted {program} (h : readSource source file = .ok program) :
      Program.ofTree tree = .ok program := mapError_eq_ok.mp (reads ▸ h)
  refine ⟨⟨?_, fun fits => ?_⟩, ?_, ?_, fun program h => numbers_of_ofTree ht hp (accepted h)⟩
  · rintro ⟨program, h⟩ token member number
    by_contra large
    exact not_tooLarge_of_ofTree ht hp (accepted h) token member ⟨number, Nat.not_le.mp large⟩
  · obtain ⟨program, h⟩ | ⟨token, member, ⟨number, large⟩, -⟩ := readable_of_parse ht hp
    · exact ⟨program, by rw [reads, h]; rfl⟩
    · exact absurd (fits token member number) (Nat.not_le.mpr large)
  · intro failure h
    rw [reads] at h
    obtain ⟨program, found⟩ | ⟨token, member, large, failed⟩ := readable_of_parse ht hp
    · rw [found] at h
      cases h
    · rw [failed] at h
      cases h
      exact ⟨token, member, large, rfl⟩
  · exact fun token member => read_of_numberText (numberText_of_tokenize ht token member)

/-- Integers as a size, a subscript and a case, one of them too large, and a floating-point
number. -/
def scatteredNumbers : String :=
  "start\n\tDeclarations\n\t\tnum a[2]\n\tcase a[0]\n\t\t007: output .5\n\tendcase\n" ++
    "\tinput b from 9223372036854775808\nend"

theorem readSource_numbers_scatteredNumbers : ∃ tokens tree,
    tokenize scatteredNumbers = .ok tokens ∧ parse tokens = .ok tree ∧
    ((∃ program, readSource scatteredNumbers = .ok program) ↔
      ∀ token ∈ tokens, token.kind = .number → ofDigits token.value.toList ≤ 2 ^ 63 - 1) ∧
    (∀ failure, readSource scatteredNumbers = .error failure →
      ∃ token ∈ tokens, token.TooLarge ∧
        failure = .error (.nowhere (.numberParseError token.value))) ∧
    (∀ token ∈ tokens, token.kind = .float →
      ∃ value, Number.Binary64.read? token.value = some value) ∧
    ∀ program, readSource scatteredNumbers = .ok program →
      (program.nums.map Int64.toInt).Perm ((ofKind .number tokens.toList).map
        fun token => (ofDigits token.value.toList : Int)) ∧
      (program.floats.map some).Perm ((ofKind .float tokens.toList).map
        (Number.Binary64.read? ·.value)) := by
  have parses : (match tokenize scatteredNumbers with
      | .ok tokens => (parse tokens).isOk
      | .error _ => false) = true := by decide +kernel
  split at parses
  · rename_i tokens ht
    obtain ⟨tree, hp⟩ := exists_of_isOk parses
    exact ⟨tokens, tree, ht, hp, readSource_numbers ht hp⟩
  · cases parses

end PseudoLang
