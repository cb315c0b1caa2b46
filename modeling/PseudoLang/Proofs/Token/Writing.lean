import PseudoLang.Proofs.Token.Literal

/-!
How tokens are written. `Writing` gives the texts of each kind of token and their values, and a scan
finds nothing else (`writing_of_scan`). A character of a source stands in code, in a comment or in a
literal (`Region`), with some brackets open, and the text of a token takes it on from there as the
token does the layout (`marked_writing`).
-/

namespace PseudoLang

open Lexeme (isLineBreak isBlank isSpace isWordPart punctuation)
open Text (isDigit)

/-- A kind of token and a value, with a text that is written for them. -/
inductive Writing (vocabulary : Vocabulary) : Token.Kind → String → List Char → Prop
  | word {text : List Char} : IsWord (String.ofList text) →
    Writing vocabulary (vocabulary.classify (String.ofList text)) (String.ofList text) text
  | number {text : List Char} : IsNumber text →
    Writing vocabulary (if '.' ∈ text then .float else .number) (String.ofList text) text
  | literal (parts : List StringLiteral.Part) : Writing vocabulary .string
    (String.ofList (StringLiteral.value parts)) (StringLiteral.text parts)
  | punctuation {text : List Char} {kind : Token.Kind} : (text, kind) ∈ punctuation →
    Writing vocabulary kind (String.ofList text) text

namespace Lexeme

variable {vocabulary : Vocabulary} {cs rest : List Char} {lexeme : Lexeme}

/-- What is scanned as a token is written for it. -/
theorem writing_of_scan (h : scan vocabulary cs = .ok (lexeme, rest)) {kind : Token.Kind}
    {value : String} (form : lexeme.form = .content kind value) :
    Writing vocabulary kind value lexeme.text := by
  cases scanned_of_scan h with
  | comment _ ran | lineBreak _ ran | blank _ ran =>
    cases ran
    cases form
  | word start same ran =>
    cases ran
    cases form
    cases same
    exact .word (isWord_run start)
  | number starts read =>
    rw [(scanNumber_eq_ok.mp read).2.2] at form
    cases form
    rw [text_of_scanNumber read]
    exact .number (isNumber_spanNumber starts)
  | @literal _ literal read =>
    obtain ⟨content, text, after⟩ := literal
    obtain ⟨parts, rfl⟩ := parts_of_readLiteral read
    rw [readLiteral_parts] at read
    cases read
    cases form
    exact .literal parts
  | punctuation comment number found =>
    obtain ⟨kind, member, same⟩ := scanPunctuation_eq_some found
    rw [same] at form
    cases form
    exact .punctuation member

end Lexeme

theorem isWordPart_of_isWord {text : List Char} (h : IsWord (String.ofList text)) :
    ∀ c ∈ text, isWordPart c = true := by
  obtain ⟨c, rest, same, start, parts⟩ := h
  rw [String.toList_ofList] at same
  rw [same]
  exact List.forall_mem_cons.mpr ⟨by simp [isWordPart, start], parts⟩

theorem isNumber_parts {text : List Char} (h : IsNumber text) :
    ∀ c ∈ text, isDigit c = true ∨ c = '.' := by
  cases h with
  | whole some digits => exact fun c member => .inl (digits c member)
  | pointed some whole decimals =>
    refine List.forall_mem_append.mpr ⟨fun c member => .inl (whole c member), ?_⟩
    exact List.forall_mem_cons.mpr ⟨.inr rfl, fun c member => .inl (decimals c member)⟩

/-- No token ends in a line break. -/
theorem Writing.getLast?_ne {vocabulary : Vocabulary} {kind : Token.Kind} {value : String}
    {text : List Char} (h : Writing vocabulary kind value text) : text.getLast? ≠ some '\n' := by
  intro last
  have member := List.mem_of_getLast? last
  cases h with
  | word word => cases isWordPart_of_isWord word _ member
  | number number => obtain digit | point := isNumber_parts number _ member <;> cases ‹_›
  | literal parts =>
    rw [StringLiteral.text, ← List.cons_append, List.getLast?_concat] at last
    cases last
  | punctuation sign =>
    have each : ∀ entry ∈ Lexeme.punctuation, '\n' ∉ entry.1 := by decide
    exact each _ sign member

/-! ## Characters of a source -/

/-- What a character stands in. -/
inductive Region
  | code
  | comment
  | literal
  /-- In a literal, after a backslash. -/
  | escape
  deriving DecidableEq, Repr

/-- What the next character stands in, after a character before `ahead`. -/
def Region.next : Region → Char → Option Char → Region
  | .code, c, ahead =>
    if c = '"' then .literal else if c = '/' ∧ ahead = some '/' then .comment else .code
  | .comment, c, _ => if c = '\n' then .code else .comment
  | .literal, c, _ => if c = '"' then .code else if c = '\\' then .escape else .literal
  | .escape, _, _ => .literal

/-- How many brackets are open after a character of code. A closing bracket too many is ignored. -/
def bracketsAfterChar (brackets : Nat) (c : Char) : Nat :=
  if c ∈ ['(', '[', '\x7b'] then brackets + 1
  else if c ∈ [')', ']', '\x7d'] then brackets - 1
  else brackets

/-- How many brackets are open after a character. -/
def Region.count (region : Region) (brackets : Nat) (c : Char) : Nat :=
  if region = .code then bracketsAfterChar brackets c else brackets

/-- A character with what it stands in and the number of brackets that are open there. -/
structure Mark where
  char : Char
  region : Region
  brackets : Nat
  deriving DecidableEq, Repr

/-- Whether a character is one of a string literal after its opening quote. -/
def Mark.inLiteral (mark : Mark) : Bool := mark.region == .literal || mark.region == .escape

/-- Whether a character is the line break that ends a comment. -/
def Mark.endsComment (mark : Mark) : Bool := mark.region == .comment && mark.char == '\n'

/-- The characters of a text from a region and a number of open brackets on. -/
def marks (region : Region) (brackets : Nat) : List Char → List Mark
  | [] => []
  | c :: cs =>
    ⟨c, region, brackets⟩ :: marks (region.next c cs.head?) (region.count brackets c) cs

/-- Marks that begin with those of a text, which have a property, and go on with others. -/
def Marked (inside : Mark → Prop) (text : List Char) (whole after : List Mark) : Prop :=
  ∃ front, whole = front ++ after ∧ front.map Mark.char = text ∧ ∀ mark ∈ front, inside mark

/-- A character that is never changed with the white space of a source. -/
def Mark.Fixed (mark : Mark) : Prop := mark.inLiteral = true ∨ isLineBreak mark.char = false

namespace Marked

variable {inside : Mark → Prop} {text more : List Char} {whole middle after : List Mark}

theorem nil (whole : List Mark) : Marked inside [] whole whole := ⟨[], rfl, rfl, by simp⟩

theorem cons {region : Region} {brackets : Nat} {c : Char} {cs : List Char}
    (here : inside ⟨c, region, brackets⟩)
    (h : Marked inside text (marks (region.next c cs.head?) (region.count brackets c) cs) after) :
    Marked inside (c :: text) (marks region brackets (c :: cs)) after := by
  obtain ⟨front, same, chars, each⟩ := h
  refine ⟨⟨c, region, brackets⟩ :: front, ?_, ?_, List.forall_mem_cons.mpr ⟨here, each⟩⟩
  · rw [marks, same, List.cons_append]
  · rw [List.map_cons, chars]

theorem append (h : Marked inside text whole middle) (next : Marked inside more middle after) :
    Marked inside (text ++ more) whole after := by
  obtain ⟨front, rfl, rfl, each⟩ := h
  obtain ⟨front', rfl, rfl, each'⟩ := next
  exact ⟨front ++ front', (List.append_assoc ..).symm, List.map_append,
    List.forall_mem_append.mpr ⟨each, each'⟩⟩

end Marked

/-! ## Characters of a lexeme -/

section

variable {brackets : Nat} {text rest : List Char}

/-- A character of code that neither begins a literal or a comment nor is a bracket. -/
def isPlain (c : Char) : Bool := c ∉ ['"', '/', '(', '[', '\x7b', ')', ']', '\x7d']

theorem next_of_isPlain {c : Char} (h : isPlain c = true) (ahead : Option Char) :
    Region.code.next c ahead = .code := by
  simp [isPlain] at h
  simp [Region.next, h]

theorem count_of_isPlain {c : Char} (h : isPlain c = true) (brackets : Nat) :
    Region.code.count brackets c = brackets := by
  simp [isPlain] at h
  simp [Region.count, bracketsAfterChar, h]

theorem marked_plain {inside : Mark → Prop} (plain : ∀ c ∈ text, isPlain c = true)
    (each : ∀ c ∈ text, inside ⟨c, .code, brackets⟩) (rest : List Char) :
    Marked inside text (marks .code brackets (text ++ rest)) (marks .code brackets rest) := by
  induction text with
  | nil => exact .nil _
  | cons c text ih =>
    obtain ⟨here, plain⟩ := List.forall_mem_cons.mp plain
    obtain ⟨first, each⟩ := List.forall_mem_cons.mp each
    refine .cons first ?_
    rw [next_of_isPlain here, count_of_isPlain here]
    exact ih plain each

theorem isPlain_of_isSpace {c : Char} (h : isSpace c = true) : isPlain c = true := by
  obtain rfl | rfl | rfl | rfl := Lexeme.isSpace_cases h <;> rfl

/-- A character that is neither white space nor of use in a literal, a comment or a bracket. -/
def isOrdinary (c : Char) : Bool := isPlain c && !isLineBreak c

theorem isOrdinary_of_isWordPart {c : Char} (h : isWordPart c = true) : isOrdinary c = true := by
  by_contra special
  have special : c ∈ ['"', '/', '(', '[', '\x7b', ')', ']', '\x7d'] ∨ c = '\n' ∨ c = '\r' := by
    by_contra other
    obtain ⟨plain, line⟩ := not_or.mp other
    exact special (by simp_all [isOrdinary, isPlain, isLineBreak])
  simp only [List.mem_cons, List.not_mem_nil, or_false] at special
  obtain (rfl | rfl | rfl | rfl | rfl | rfl | rfl | rfl) | rfl | rfl := special <;> cases h

theorem marked_ordinary (each : ∀ c ∈ text, isOrdinary c = true) (rest : List Char) :
    Marked Mark.Fixed text (marks .code brackets (text ++ rest)) (marks .code brackets rest) := by
  have parts : ∀ c ∈ text, isPlain c = true ∧ isLineBreak c = false := by
    simpa [isOrdinary] using each
  exact marked_plain (fun c member => (parts c member).1)
    (fun c member => .inr (parts c member).2) rest

theorem next_literal {c : Char} (h : c ≠ '"' ∧ c ≠ '\\') (ahead : Option Char) :
    Region.literal.next c ahead = .literal := by
  simp [Region.next, h]

theorem HexDigit.ne_special (digit : HexDigit) : digit.1 ≠ '"' ∧ digit.1 ≠ '\\' := by
  obtain ⟨c, digit⟩ := digit
  constructor <;>
    · rintro rfl
      cases digit

theorem marked_part (part : StringLiteral.Part) (brackets : Nat) (rest : List Char) :
    Marked Mark.Fixed part.text (marks .literal brackets (part.text ++ rest))
      (marks .literal brackets rest) := by
  cases part with
  | plain c h =>
    refine .cons (.inl rfl) ?_
    rw [next_literal h]
    exact .nil _
  | escaped c h => exact .cons (.inl rfl) (.cons (.inl rfl) (.nil _))
  | coded high low =>
    have digits : Marked Mark.Fixed [high.1, low.1]
        (marks .literal brackets (high.1 :: low.1 :: rest)) (marks .literal brackets rest) := by
      refine .cons (.inl rfl) ?_
      rw [next_literal high.ne_special]
      refine .cons (.inl rfl) ?_
      rw [next_literal low.ne_special]
      exact .nil _
    exact .cons (.inl rfl) (.cons (.inl rfl) digits)

theorem marked_parts (parts : List StringLiteral.Part) (brackets : Nat) (rest : List Char) :
    Marked Mark.Fixed (parts.flatMap StringLiteral.Part.text)
      (marks .literal brackets (parts.flatMap StringLiteral.Part.text ++ rest))
      (marks .literal brackets rest) := by
  induction parts with
  | nil => exact .nil _
  | cons part parts ih =>
    rw [List.flatMap_cons, List.append_assoc]
    exact (marked_part part brackets _).append ih

theorem marked_literal (parts : List StringLiteral.Part) (brackets : Nat) (rest : List Char) :
    Marked Mark.Fixed (StringLiteral.text parts)
      (marks .code brackets (StringLiteral.text parts ++ rest)) (marks .code brackets rest) := by
  rw [StringLiteral.text_append]
  refine .cons (.inr rfl) ((marked_parts parts brackets _).append ?_)
  exact .cons (.inl rfl) (.nil _)

/-- How each sign is written: as a slash, as a bracket, or with ordinary characters. -/
theorem punctuation_cases {kind : Token.Kind} (h : (text, kind) ∈ punctuation) :
    (text = ['/'] ∧ kind = .operator) ∨
    (text ∈ ['(', ')', '[', ']', '\x7b', '\x7d'].map ([·]) ∧ kind = .symbol) ∨
    (∀ c ∈ text, isOrdinary c = true) ∧
      (kind = .operator ∨ text ∈ [['='], [','], ['.'], [';'], [':']]) := by
  have each : ∀ entry ∈ punctuation, (entry.1 = ['/'] ∧ entry.2 = .operator) ∨
      (entry.1 ∈ ['(', ')', '[', ']', '\x7b', '\x7d'].map ([·]) ∧ entry.2 = .symbol) ∨
      entry.1.all isOrdinary = true ∧
        (entry.2 = .operator ∨ entry.1 ∈ [['='], [','], ['.'], [';'], [':']]) := by decide
  exact (each _ h).imp_right (.imp_right (.imp_left List.all_eq_true.mp))

theorem countBracket_of_ne_symbol {kind : Token.Kind} (h : kind ≠ .symbol) (value : String) :
    Layout.countBracket brackets kind value = brackets := by
  unfold Layout.countBracket
  split <;> first | rfl | exact absurd rfl h

/-- The kinds of words. -/
theorem classify_mem (vocabulary : Vocabulary) (word : String) :
    vocabulary.classify word ∈ [.operator, .keyword, .bool, .name] := by
  unfold Vocabulary.classify
  repeat' split
  all_goals simp

/-- The text of a token leads from code to code, with the brackets that the token leaves open. -/
theorem marked_writing {vocabulary : Vocabulary} {kind : Token.Kind} {value : String}
    (h : Writing vocabulary kind value text) (slash : text = ['/'] → rest.head? ≠ some '/') :
    Marked Mark.Fixed text (marks .code brackets (text ++ rest))
      (marks .code (Layout.countBracket brackets kind value) rest) := by
  cases h with
  | word word =>
    rw [countBracket_of_ne_symbol (ne_of_mem_of_not_mem (classify_mem vocabulary _) (by decide))]
    have parts := isWordPart_of_isWord word
    exact marked_ordinary (fun c member => isOrdinary_of_isWordPart (parts c member)) rest
  | number number =>
    rw [countBracket_of_ne_symbol (by split <;> nofun)]
    refine marked_ordinary (fun c member => ?_) rest
    obtain digit | rfl := isNumber_parts number c member
    · exact isOrdinary_of_isWordPart (by simp [isWordPart, digit])
    · rfl
  | literal parts =>
    rw [countBracket_of_ne_symbol (by decide)]
    exact marked_literal parts brackets rest
  | punctuation member =>
    obtain ⟨rfl, rfl⟩ | ⟨bracket, rfl⟩ | ⟨each, other⟩ := punctuation_cases member
    · have code : Region.code.next '/' rest.head? = .code := by
        simp [Region.next, slash rfl]
      refine .cons (.inr rfl) ?_
      show Marked _ [] (marks (Region.code.next '/' rest.head?) brackets rest) _
      rw [code]
      exact .nil _
    · simp only [List.map_cons, List.map_nil, List.mem_cons, List.not_mem_nil, or_false] at bracket
      obtain rfl | rfl | rfl | rfl | rfl | rfl := bracket <;> exact .cons (.inr rfl) (.nil _)
    · have same : Layout.countBracket brackets kind (String.ofList text) = brackets := by
        obtain rfl | other := other
        · exact countBracket_of_ne_symbol (by decide) _
        · simp only [List.mem_cons, List.not_mem_nil, or_false] at other
          obtain rfl | rfl | rfl | rfl | rfl := other <;> cases kind <;> rfl
      rw [same]
      exact marked_ordinary each rest

/-- A run of line breaks in code, or after a comment that the first of them ends. -/
theorem marked_breaks {region : Region} (each : ∀ c ∈ text, isLineBreak c = true)
    (place : region = .code ∨ region = .comment ∧ text.head? = some '\n') (rest : List Char) :
    Marked (fun mark => isLineBreak mark.char = true ∧ mark.brackets = brackets) text
      (marks region brackets (text ++ rest)) (marks .code brackets rest) := by
  have code {text : List Char} (each : ∀ c ∈ text, isLineBreak c = true) :
      Marked (fun mark => isLineBreak mark.char = true ∧ mark.brackets = brackets) text
        (marks .code brackets (text ++ rest)) (marks .code brackets rest) :=
    marked_plain (fun c member => isPlain_of_isSpace (by simp [isSpace, each c member]))
      (fun c member => ⟨each c member, rfl⟩) rest
  obtain rfl | ⟨rfl, first⟩ := place
  · exact code each
  · obtain ⟨text, rfl⟩ := List.head?_eq_some_iff.mp first
    exact .cons ⟨rfl, rfl⟩ (code (List.forall_mem_cons.mp each).2)

/-- A comment up to the line break that ends it. -/
theorem marked_comment (inside : '\n' ∉ text) (rest : List Char) :
    Marked (fun mark => mark.char ≠ '\n') ('/' :: '/' :: text)
      (marks .code brackets ('/' :: '/' :: text ++ rest)) (marks .comment brackets rest) := by
  have body : Marked (fun mark => mark.char ≠ '\n') text
      (marks .comment brackets (text ++ rest)) (marks .comment brackets rest) := by
    induction text with
    | nil => exact .nil _
    | cons c text ih =>
      obtain ⟨first, inside⟩ := not_or.mp (mt List.mem_cons.mpr inside)
      refine .cons (Ne.symm first) ?_
      have comment (ahead : Option Char) : Region.comment.next c ahead = .comment := by
        simp [Region.next, Ne.symm first]
      rw [comment]
      exact ih inside
  have slash : '/' ≠ '\n' := by decide
  exact .cons slash (.cons slash body)

end

end PseudoLang
