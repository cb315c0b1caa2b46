import PseudoLang.Error
import PseudoLang.Text.Digit
import PseudoLang.Token

/-!
Lexemes: the pieces that a source text falls into. Comments, line breaks and blanks are lexemes of
their own; every other one is the text of a token. `scan` takes the first lexeme off a text, and
what it takes and what it leaves make up the text (`append_of_scan`).
-/

namespace PseudoLang

open Text (isDigit hexValue?)

/-- The words with a meaning of their own. -/
structure Vocabulary where
  keywords : List String
  operators : List String
  deriving DecidableEq, Repr

namespace Vocabulary

/-- The reserved words of the language. -/
def language : Vocabulary where
  keywords :=
    ["num", "string", "float", "bool", "InputFile", "OutputFile", "proc", "start",
      "Declarations", "end", "return", "if", "then", "else", "endif", "while", "endwhile", "do",
      "until", "for", "to", "step", "endfor", "case", "default", "endcase", "set", "input", "from",
      "output", "open", "close"]
  operators := ["AND", "OR", "NOT"]

/-- The kind of token that a word is. An operator that is also a keyword counts as an operator. -/
def classify (vocabulary : Vocabulary) (word : String) : Token.Kind :=
  if word ∈ vocabulary.operators then .operator
  else if word ∈ vocabulary.keywords then .keyword
  else if word = "true" ∨ word = "false" then .bool
  else .name

end Vocabulary

/-- What a lexeme is for. -/
inductive Lexeme.Form
  | comment
  | lineBreak
  | blank
  | content (kind : Token.Kind) (value : String)
  deriving DecidableEq, Repr

/-- A piece of source text. -/
structure Lexeme where
  form : Lexeme.Form
  text : List Char
  deriving DecidableEq, Repr

namespace Lexeme

/-! ## Character classes -/

def isLineBreak (c : Char) : Bool := c == '\n' || c == '\r'

def isBlank (c : Char) : Bool := c == ' ' || c == '\t'

def isWordStart (c : Char) : Bool :=
  ('a' ≤ c && c ≤ 'z') || ('A' ≤ c && c ≤ 'Z') || c == '_'

def isWordPart (c : Char) : Bool := isWordStart c || isDigit c

/-! ## String literals -/

/-- The character that a letter after a backslash stands for; any other stands for itself. -/
def unescape : Char → Char
  | 'a' => '\x07'
  | 'b' => '\x08'
  | 'n' => '\n'
  | 'r' => '\r'
  | 's' => ' '
  | 't' => '\t'
  | c => c

/-- A string literal read up to its closing quote. -/
structure Literal where
  value : List Char
  text : List Char
  rest : List Char
  deriving DecidableEq, Repr

/-- Reads the body of a string literal, after its opening quote. The value and the text read so
far are given in reverse. -/
def readLiteral (value text : List Char) : List Char → Except Cause Literal
  | [] => .error (.invalidString "unterminated string")
  | '"' :: rest => .ok ⟨value.reverse, ('"' :: text).reverse, rest⟩
  | ['\\'] => .error (.invalidString "cannot escape end of input")
  | '\\' :: 'x' :: high :: low :: rest =>
    match hexValue? high, hexValue? low with
    | some h, some l =>
      readLiteral (Char.ofNat (h * 16 + l) :: value) (low :: high :: 'x' :: '\\' :: text) rest
    | _, _ => .error (.invalidString "invalid hex sequence")
  | '\\' :: c :: rest =>
    if c = 'x' then .error (.invalidString "invalid hex sequence")
    else readLiteral (unescape c :: value) (c :: '\\' :: text) rest
  | c :: rest => readLiteral (c :: value) (c :: text) rest

/-! ## Numbers -/

/-- The longest number at the front of a text that starts with a digit, or with a point and a
digit: digits, and a point with the digits after it if one follows. -/
def spanNumber (cs : List Char) : List Char × List Char :=
  let whole := cs.takeWhile isDigit
  match cs.dropWhile isDigit with
  | '.' :: rest => (whole ++ '.' :: rest.takeWhile isDigit, rest.dropWhile isDigit)
  | rest => (whole, rest)

/-- Reads a number. A second point right after it is an error. -/
def scanNumber (cs : List Char) : Except Cause (Lexeme × List Char) :=
  let (text, rest) := spanNumber cs
  if rest.head? = some '.' then .error (.malformedNumber (String.ofList (text ++ ['.'])))
  else
    let kind := if '.' ∈ text then Token.Kind.float else .number
    .ok (⟨.content kind (String.ofList text), text⟩, rest)

/-! ## Punctuation -/

/-- The operators and symbols; a longer one stands before its beginnings. -/
def punctuation : List (List Char × Token.Kind) :=
  [(['<', '='], .operator), (['>', '='], .operator), (['<', '>'], .operator),
    (['<'], .operator), (['>'], .operator), (['~'], .operator), (['/'], .operator),
    (['%'], .operator), (['^'], .operator), (['&'], .operator), (['*'], .operator),
    (['-'], .operator), (['+'], .operator), (['('], .symbol), ([')'], .symbol), (['['], .symbol),
    ([']'], .symbol), (['{'], .symbol), (['}'], .symbol), (['='], .symbol), ([','], .symbol),
    (['.'], .symbol), ([';'], .symbol), ([':'], .symbol)]

/-- The first operator or symbol that the text starts with. -/
def scanPunctuation (cs : List Char) : Option (Lexeme × List Char) :=
  punctuation.findSome? fun (text, kind) =>
    if text <+: cs then some (⟨.content kind (String.ofList text), text⟩, cs.drop text.length)
    else none

/-! ## The first lexeme of a text -/

/-- A lexeme of the longest run of characters in a class. -/
def run (form : Form) (p : Char → Bool) (cs : List Char) : Lexeme × List Char :=
  (⟨form, cs.takeWhile p⟩, cs.dropWhile p)

/-- Whether a number starts here: with a digit, or with a point and a digit. -/
def startsNumber : List Char → Bool
  | '.' :: c :: _ => isDigit c
  | c :: _ => isDigit c
  | [] => false

/-- Takes the first lexeme off a text, and leaves the rest. -/
def scan (vocabulary : Vocabulary) (cs : List Char) : Except Cause (Lexeme × List Char) :=
  match cs with
  | [] => .error (.unrecognisedToken "")
  | c :: tail =>
    if ['/', '/'] <+: cs then .ok (run .comment (· != '\n') cs)
    else if isLineBreak c then .ok (run .lineBreak isLineBreak cs)
    else if isBlank c then .ok (run .blank isBlank cs)
    else if isWordStart c then
      let word := String.ofList (cs.takeWhile isWordPart)
      .ok (run (.content (vocabulary.classify word) word) isWordPart cs)
    else if startsNumber cs then scanNumber cs
    else if c = '"' then do
      let literal ← readLiteral [] ['"'] tail
      return (⟨.content .string (String.ofList literal.value), literal.text⟩, literal.rest)
    else
      match scanPunctuation cs with
      | some found => .ok found
      | none => .error (.unrecognisedToken c.toString)

/-! ## Nothing is lost -/

theorem append_of_readLiteral {cs value text : List Char} {literal : Literal}
    (h : readLiteral value text cs = .ok literal) :
    literal.text ++ literal.rest = text.reverse ++ cs := by
  fun_induction readLiteral value text cs <;> grind

theorem readLiteral_text_ne_nil {cs value text : List Char} {literal : Literal}
    (h : readLiteral value text cs = .ok literal) : literal.text ≠ [] := by
  fun_induction readLiteral value text cs <;> grind

theorem spanNumber_append (cs : List Char) : (spanNumber cs).1 ++ (spanNumber cs).2 = cs := by
  have whole := List.takeWhile_append_dropWhile (p := isDigit) (l := cs)
  unfold spanNumber
  split
  case h_1 rest found =>
    rw [found] at whole
    simpa using whole
  case h_2 => exact whole

theorem spanNumber_ne_nil {cs : List Char} (h : startsNumber cs = true) :
    (spanNumber cs).1 ≠ [] := by
  unfold spanNumber
  split
  case h_1 => simp
  case h_2 notPoint =>
    match cs, h with
    | c :: tail, h =>
      by_cases digit : isDigit c
      · simp [digit]
      · have point : c = '.' := by
          unfold startsNumber at h
          grind
        subst point
        exact absurd rfl (notPoint tail)

theorem run_append (form : Form) (p : Char → Bool) (cs : List Char) :
    (run form p cs).1.text ++ (run form p cs).2 = cs := by
  simp [run]

theorem run_text_ne_nil {form : Form} {p : Char → Bool} {c : Char} {cs : List Char}
    (h : p c = true) : (run form p (c :: cs)).1.text ≠ [] := by
  simp [run, h]

theorem append_of_scanPunctuation {cs rest : List Char} {lexeme : Lexeme}
    (h : scanPunctuation cs = some (lexeme, rest)) :
    lexeme.text ≠ [] ∧ lexeme.text ++ rest = cs := by
  obtain ⟨⟨text, kind⟩, mem, found⟩ := List.exists_of_findSome?_eq_some h
  have ne : text ≠ [] := by
    have : ∀ entry ∈ punctuation, entry.1 ≠ [] := by decide
    exact this _ mem
  by_cases front : text <+: cs
  · simp only [front, if_true, Option.some.injEq, Prod.mk.injEq] at found
    obtain ⟨rfl, rfl⟩ := found
    exact ⟨ne, (List.prefix_iff_eq_append.mp front)⟩
  · simp [front] at found

/-- A lexeme has text, and its text and the rest make up the source. -/
theorem append_of_scan {vocabulary : Vocabulary} {cs rest : List Char} {lexeme : Lexeme}
    (h : scan vocabulary cs = .ok (lexeme, rest)) :
    lexeme.text ≠ [] ∧ lexeme.text ++ rest = cs := by
  have ofRun {form : Form} {p : Char → Bool} {c : Char} {tail : List Char} (front : p c = true)
      (h : Except.ok (ε := Cause) (run form p (c :: tail)) = .ok (lexeme, rest)) :
      lexeme.text ≠ [] ∧ lexeme.text ++ rest = c :: tail := by
    obtain ⟨rfl, rfl⟩ := Prod.mk.inj (Except.ok.inj h)
    exact ⟨run_text_ne_nil front, run_append ..⟩
  unfold scan at h
  split at h
  case h_1 => simp at h
  case h_2 c tail =>
    split at h
    case isTrue slashes =>
      obtain ⟨rfl, _⟩ := List.cons_prefix_cons.mp slashes
      exact ofRun (by decide) h
    split at h
    case isTrue front => exact ofRun front h
    split at h
    case isTrue front => exact ofRun front h
    split at h
    case isTrue front => exact ofRun (by simp [isWordPart, front]) h
    split at h
    case isTrue front =>
      have whole := spanNumber_append (c :: tail)
      have ne := spanNumber_ne_nil front
      unfold scanNumber at h
      simp only at h
      split at h
      · simp at h
      · obtain ⟨rfl, rfl⟩ := Prod.mk.inj (Except.ok.inj h)
        exact ⟨ne, whole⟩
    split at h
    case isTrue quote =>
      match read : readLiteral [] ['"'] tail with
      | .error cause => simp [read, bind, Except.bind] at h
      | .ok literal =>
        simp only [read, bind, Except.bind, pure, Except.pure] at h
        obtain ⟨rfl, rfl⟩ := Prod.mk.inj (Except.ok.inj h)
        exact ⟨readLiteral_text_ne_nil read, by simpa [quote] using append_of_readLiteral read⟩
    split at h
    case h_1 found eq =>
      cases h
      exact append_of_scanPunctuation eq
    case h_2 => simp at h

theorem length_lt_of_scan {vocabulary : Vocabulary} {cs rest : List Char} {lexeme : Lexeme}
    (h : scan vocabulary cs = .ok (lexeme, rest)) : rest.length < cs.length := by
  obtain ⟨ne, whole⟩ := append_of_scan h
  have := List.length_pos_iff.mpr ne
  rw [← whole, List.length_append]
  omega

end Lexeme

end PseudoLang
