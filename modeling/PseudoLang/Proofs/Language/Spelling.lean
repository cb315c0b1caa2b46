import PseudoLang.Proofs.Language.Lossless
import PseudoLang.Proofs.Token.Sign

/-!
How the tokens of a source are spelled, as the grammar sees them, and which sign of a program a
token is spelled for. Only a number has more than one spelling.
-/

namespace PseudoLang

/-! ## The tokens of a source -/

/-- A token with a text that a source can give its kind. -/
structure Terminal.Genuine (terminal : Terminal) : Prop where
  plain : terminal.Plain
  name : terminal.1 = "name" → Vocabulary.language.IsName terminal.2
  num : terminal.1 = "literal_num" → ∀ c ∈ terminal.2.toList, Text.isDigit c = true
  bool : terminal.1 = "literal_bool" → terminal.2 = "true" ∨ terminal.2 = "false"

theorem Terminal.Genuine.text {kind value : String} (h : Terminal.Genuine (kind, value))
    (closed : kind ∉ openKinds) : value = fixedText kind := h.plain.1 closed

/-- The kinds whose texts are not free. -/
theorem Terminal.genuine_of_plain {kind value : String} (h : Terminal.Plain (kind, value))
    (other : kind ∉ ["name", "literal_num", "literal_bool"]) : Terminal.Genuine (kind, value) := by
  simp only [List.mem_cons, List.not_mem_nil, or_false, not_or] at other
  obtain ⟨name, num, bool⟩ := other
  exact ⟨h, fun same => absurd same name, fun same => absurd same num,
    fun same => absurd same bool⟩

theorem closed_keywords :
    ∀ word ∈ Vocabulary.language.keywords, word ∉ ["name", "literal_num", "literal_bool"] := by
  decide +kernel

theorem closed_punctuation :
    ∀ sign ∈ Lexeme.punctuation,
      String.ofList sign.1 ∉ ["name", "literal_num", "literal_bool"] := by
  decide +kernel

theorem genuine_of_writes {kind : Token.Kind} {value : String}
    (h : Vocabulary.language.Writes kind value) :
    Terminal.Genuine (Token.typeNameOf kind value, value) := by
  have plain := plain_of_writes h
  cases kind with
  | keyword => exact Terminal.genuine_of_plain plain (closed_keywords value h)
  | symbol =>
    obtain ⟨text, member, rfl⟩ := h
    exact Terminal.genuine_of_plain plain (closed_punctuation _ member)
  | name => exact ⟨plain, fun _ => h, by simp [Token.typeNameOf], by simp [Token.typeNameOf]⟩
  | number => exact ⟨plain, by simp [Token.typeNameOf], fun _ => h, by simp [Token.typeNameOf]⟩
  | bool => exact ⟨plain, by simp [Token.typeNameOf], by simp [Token.typeNameOf], fun _ => h⟩
  | operator | float | string =>
    exact Terminal.genuine_of_plain plain (by simp [Token.typeNameOf])
  | eof | indent | dedent | newline => exact h.elim

theorem genuine_of_written {token : Token} (h : token.Written .language) :
    token.terminal.Genuine := by
  have plain := plain_of_written h
  obtain ⟨kind, value, span⟩ := token
  obtain written | ⟨member, -⟩ := h
  · exact genuine_of_writes written
  · have layout : ∀ kind ∈ Layout.kinds, ∀ value,
        Token.typeNameOf kind value ∉ ["name", "literal_num", "literal_bool"] := by
      simp [Layout.kinds, Token.typeNameOf]
    exact Terminal.genuine_of_plain plain (layout kind member value)

/-- The end of the source is a token like every other. -/
theorem genuine_of_tokenize {source file : String} {tokens : Array Token}
    (h : tokenize source file = .ok tokens) : ∀ token ∈ tokens, token.terminal.Genuine := by
  obtain ⟨content, last, whole, ends, empty, written⟩ := tokenize_eq_ok h
  intro token member
  rw [← Array.mem_toList_iff, whole, List.mem_append, List.mem_singleton] at member
  obtain within | rfl := member
  · exact genuine_of_written (written token within)
  · rw [Token.terminal, Token.typeName, ends, empty]
    exact Terminal.genuine_of_plain (plain_fixed endKind (by decide)) (by decide)

/-! ## Signs and tokens -/

namespace Sign

/-- The text that a sign is written with, unless it is a number, which has no single one. -/
def text? : Sign → Option String
  | mark kind => some (fixedText kind)
  | name text | operator text | string text => some text
  | bool value => some (toString value)
  | num _ | float _ => none
  | eof => some ""

/-- The token is how the sign is written. -/
def Matches (sign : Sign) (terminal : Terminal) : Prop :=
  terminal.1 = sign.kind ∧ sign.Spells terminal.2 ∧ ∀ text ∈ sign.text?, terminal.2 = text

theorem matches_mark {kind value : String} (closed : kind ∉ openKinds)
    (h : Terminal.Genuine (kind, value)) : (mark kind).Matches (kind, value) := by
  refine ⟨rfl, trivial, ?_⟩
  rintro _ ⟨⟩
  exact h.text closed

/-- The same operator, whether or not it is the equals sign. -/
theorem matches_operator {kind value : String} (h : Terminal.Genuine (kind, value))
    (operator : kind = "op" ∨ kind = "=") : (Sign.operator value).Matches (kind, value) := by
  have same : kind = (Sign.operator value).kind := by
    obtain rfl | rfl := operator
    · exact (if_neg (h.plain.2 rfl)).symm
    · have text : value = "=" := h.text (by decide)
      rw [text]
      rfl
  refine ⟨same, rfl, ?_⟩
  rintro _ ⟨⟩
  rfl

/-- The text of a truth value is told from the value. -/
theorem matches_bool {value : String} (h : Terminal.Genuine ("literal_bool", value)) :
    (bool (value == "true")).Matches ("literal_bool", value) := by
  refine ⟨rfl, rfl, ?_⟩
  rintro _ ⟨⟩
  obtain rfl | rfl := h.bool rfl
  · rfl
  · rfl

end Sign

/-- The same token, or two spellings of one number. -/
def Terminal.Respelled (terminal other : Terminal) : Prop :=
  terminal.1 = other.1 ∧ (terminal.2 = other.2 ∨
    (terminal.1 = "literal_num" ∧ ∃ value, Number.readInt64? terminal.2 = some value ∧
      Number.readInt64? other.2 = some value) ∨
    (terminal.1 = "literal_float" ∧ ∃ value, Number.Binary64.read? terminal.2 = some value ∧
      Number.Binary64.read? other.2 = some value))

/-- The tokens of one sign differ in the spelling of a number at most. -/
theorem Sign.respelled {sign : Sign} {terminal other : Terminal} (h : sign.Matches terminal)
    (ho : sign.Matches other) : terminal.Respelled other := by
  obtain ⟨kind, spells, text⟩ := h
  obtain ⟨kind', spells', text'⟩ := ho
  refine ⟨kind.trans kind'.symm, ?_⟩
  cases sign with
  | num value => exact .inr (.inl ⟨kind, value, spells, spells'⟩)
  | float value => exact .inr (.inr ⟨kind, value, spells, spells'⟩)
  | mark | name | operator | string | bool | eof =>
    exact .inl ((text _ rfl).trans (text' _ rfl).symm)

theorem Sign.forall₂_respelled {signs : List Sign} {terminals others : List Terminal}
    (h : List.Forall₂ Matches signs terminals) (ho : List.Forall₂ Matches signs others) :
    List.Forall₂ Terminal.Respelled terminals others := by
  induction h generalizing others with
  | nil =>
    cases ho
    exact .nil
  | cons here _ ih =>
    obtain _ | ⟨there, rest⟩ := ho
    exact .cons (respelled here there) (ih rest)

end PseudoLang
