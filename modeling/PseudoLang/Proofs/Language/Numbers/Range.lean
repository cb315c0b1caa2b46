import PseudoLang.Proofs.Language.Numbers.Json
import PseudoLang.Proofs.Language.Numbers.Programs
import PseudoLang.Proofs.Number.Rounding

/-!
What becomes of the numbers of a source in JSON. An integer that is too large is an error. A
floating-point number that is too large is not: it becomes infinite, and is the one kind of literal
that is not written as a number (`toJson_numbers`).
-/

namespace PseudoLang

open Number (Binary64 ofDigits)
open Text (isDigit)

variable {source file : String} {tokens : Array Token} {tree : SyntaxTree}

/-! ## Literals of tokens -/

/-- The number in JSON that a number token stands for. -/
def Token.literal? (token : Token) : Option Json :=
  match token.kind with
  | .number => some (.integer (ofDigits token.value.toList))
  | .float => (Binary64.read? token.value).map .float
  | _ => none

theorem literals_of_standFor {tokens : List Token} {numbers : List Sign}
    (h : List.Forall₂ Sign.StandsFor numbers tokens) :
    (Sign.literals numbers).map some = tokens.map Token.literal? := by
  induction h with
  | nil => rfl
  | cons here _ ih =>
    obtain ⟨kind, value, rfl, same⟩ | ⟨kind, value, rfl, same⟩ := here
    · simpa [Sign.literals, Sign.literal?, Token.literal?, kind, same] using ih
    · simpa [Sign.literals, Sign.literal?, Token.literal?, kind, same] using ih

theorem literals_numbers (signs : List Sign) :
    Sign.literals (Sign.numbers signs) = Sign.literals signs := by
  refine filterMap_numbers ?_ signs
  rintro (_ | _ | _ | _ | _ | _ | _ | _) h <;> first | rfl | cases h

/-- Every number of a source is in the JSON value of its program, and no others are. -/
theorem numbers_toJson_of_ofTree {program : Program} (ht : tokenize source file = .ok tokens)
    (hp : parse tokens file = .ok tree) (reads : Program.ofTree tree = .ok program) :
    (program.toJson.numbers.map some).Perm
      ((tokens.toList.filter Token.isNumber).map Token.literal?) := by
  obtain ⟨numbers, same, values⟩ := standFor_of_ofTree ht hp reads
  rw [program.numbers_toJson, ← literals_numbers, ← literals_of_standFor values]
  exact (same.filterMap _).map _

/-! ## The range of floating-point numbers -/

/-- The decimal number that a text with a point stands for is below the middle between the greatest
finite number and the next power of two. -/
def Token.InRange (token : Token) : Prop :=
  ofDigits (token.value.toList.filter isDigit) <
    Binary64.limit * 10 ^ (token.value.toList.dropWhile isDigit).tail.length

instance (token : Token) : Decidable token.InRange := Nat.decLt _ _

theorem Token.isFinite_iff {token : Token} (text : NumberText token.kind token.value)
    (float : token.kind = .float) {value : Binary64}
    (read : Binary64.read? token.value = some value) :
    value.isFinite = true ↔ token.InRange := by
  obtain ⟨whole, decimals, same, some, hw, hd⟩ := text.float float
  have all : ∀ c ∈ whole ++ decimals, isDigit c = true := fun c member =>
    (List.mem_append.mp member).elim (hw c) (hd c)
  rw [same, Binary64.read?_pointed some hw hd, Option.some.injEq] at read
  obtain ⟨-, left⟩ := @Number.span_append _ _ ('.' :: decimals) hw (by simp [isDigit])
  have point : isDigit '.' = false := rfl
  rw [Token.InRange, same, String.toList_ofList, left, List.filter_append,
    List.filter_cons_of_neg (by simp [point]), List.filter_eq_self.mpr hw,
    List.filter_eq_self.mpr hd, ← read]
  exact Binary64.isFinite_ofDecimal false all decimals.length

theorem floats_finite_iff {program : Program} (ht : tokenize source file = .ok tokens)
    (hp : parse tokens file = .ok tree) (reads : Program.ofTree tree = .ok program) :
    (∀ value ∈ program.floats, value.isFinite = true) ↔
      ∀ token ∈ tokens, token.kind = .float → token.InRange := by
  obtain ⟨-, floats⟩ := numbers_of_ofTree ht hp reads
  constructor
  · intro finite token member float
    have here : token ∈ ofKind .float tokens.toList :=
      List.mem_filter.mpr ⟨Array.mem_toList_iff.mpr member, by simp [float]⟩
    obtain ⟨value, among, read⟩ := List.mem_map.mp (floats.symm.subset (List.mem_map_of_mem here))
    have text := numberText_of_tokenize ht token member
    exact (Token.isFinite_iff text float read.symm).mp (finite value among)
  · intro fits value among
    obtain ⟨token, here, read⟩ := List.mem_map.mp (floats.subset (List.mem_map_of_mem among))
    obtain ⟨member, float⟩ := List.mem_filter.mp here
    have member : token ∈ tokens := Array.mem_toList_iff.mp member
    have float : token.kind = .float := by simpa using float
    have text := numberText_of_tokenize ht token member
    exact (Token.isFinite_iff text float read).mpr (fits token member float)

theorem isWritable_numbers_iff (program : Program) :
    (∀ number ∈ program.toJson.numbers, number.isWritable = true) ↔
      ∀ value ∈ program.floats, value.isFinite = true := by
  rw [program.numbers_toJson]
  simp only [Sign.literals, Program.floats, List.mem_filterMap]
  constructor
  · rintro writable value ⟨sign, member, float⟩
    cases sign with
    | float other =>
      cases float
      exact writable _ ⟨_, member, rfl⟩
    | _ => cases float
  · rintro finite number ⟨sign, member, literal⟩
    cases sign with
    | float value =>
      cases literal
      exact finite value ⟨_, member, rfl⟩
    | num value =>
      cases literal
      rfl
    | _ => cases literal

/-- An integer that is too large is an error. A source without one has a program, and all its
numbers are in the JSON value of the program. The floating-point numbers are finite, and each number
is written as a number in both texts of the value, exactly if none is too large. -/
theorem toJson_numbers (ht : tokenize source file = .ok tokens)
    (hp : parse tokens file = .ok tree) :
    ((∃ token ∈ tokens, token.TooLarge) → ∃ token ∈ tokens, token.TooLarge ∧
      readSource source file = .error (.error (.nowhere (.numberParseError token.value)))) ∧
    ∀ program, readSource source file = .ok program →
      (program.toJson.numbers.map some).Perm
        ((tokens.toList.filter Token.isNumber).map Token.literal?) ∧
      ((∀ value ∈ program.floats, value.isFinite = true) ↔
        ∀ token ∈ tokens, token.kind = .float → token.InRange) ∧
      ∀ compactly, ∃ document, Json.read? (program.toJson.render compactly) = some document ∧
        (document.numbers = program.toJson.numbers.map Json.denoted ↔
          ∀ token ∈ tokens, token.kind = .float → token.InRange) := by
  have reads := readSource_of_parse ht hp
  constructor
  · rintro ⟨token, member, large⟩
    obtain ⟨program, found⟩ | ⟨other, among, too_large, failed⟩ := readable_of_parse ht hp
    · exact absurd large (not_tooLarge_of_ofTree ht hp found token member)
    · exact ⟨other, among, too_large, by rw [reads, failed]; rfl⟩
  · intro program accepted
    have reads : Program.ofTree tree = .ok program := mapError_eq_ok.mp (reads ▸ accepted)
    have finite := floats_finite_iff ht hp reads
    refine ⟨numbers_toJson_of_ofTree ht hp reads, finite, fun compactly => ?_⟩
    refine ⟨_, Json.read?_render compactly program.toJson, ?_⟩
    rw [← finite, ← isWritable_numbers_iff, Json.numbers_denoted]
    refine ⟨fun same => ?_, fun all => by rw [List.filter_eq_self.mpr all]⟩
    have count := congrArg List.length same
    rw [List.length_map, List.length_map] at count
    exact List.length_filter_eq_length_iff.mp count

/-- An integer and two floating-point numbers, one of them with more digits than 64 bits can hold. -/
def exactAndRounded : String := "start\n\toutput 12 to .5\n\toutput 123456789012345678901.\nend"

theorem toJson_numbers_exactAndRounded : ∃ tokens tree,
    tokenize exactAndRounded = .ok tokens ∧ parse tokens = .ok tree ∧
    ((∃ token ∈ tokens, token.TooLarge) → ∃ token ∈ tokens, token.TooLarge ∧
      readSource exactAndRounded = .error (.error (.nowhere (.numberParseError token.value)))) ∧
    ∀ program, readSource exactAndRounded = .ok program →
      (program.toJson.numbers.map some).Perm
        ((tokens.toList.filter Token.isNumber).map Token.literal?) ∧
      ((∀ value ∈ program.floats, value.isFinite = true) ↔
        ∀ token ∈ tokens, token.kind = .float → token.InRange) ∧
      ∀ compactly, ∃ document, Json.read? (program.toJson.render compactly) = some document ∧
        (document.numbers = program.toJson.numbers.map Json.denoted ↔
          ∀ token ∈ tokens, token.kind = .float → token.InRange) := by
  have parses : (match tokenize exactAndRounded with
      | .ok tokens => (parse tokens).isOk
      | .error _ => false) = true := by decide +kernel
  split at parses
  · rename_i tokens ht
    obtain ⟨tree, hp⟩ := exists_of_isOk parses
    exact ⟨tokens, tree, ht, hp, toJson_numbers ht hp⟩
  · cases parses

/-- The characters of a source with one number, which has 310 digits before its point. -/
def hugeFloatText : List Char :=
  "start\n\toutput 1".toList ++ List.replicate 309 '0' ++ ".5\nend".toList

def hugeFloat : String := String.ofList hugeFloatText

/-- The program of the source is accepted, and neither of its texts has a number. -/
theorem hugeFloat_null : ∃ program, readSource hugeFloat = .ok program ∧
    program.floats = [.infinite false] ∧ Json.floatText (.infinite false) = "null".toList ∧
    ∀ compactly, ∃ document, Json.read? (program.toJson.render compactly) = some document ∧
      document.numbers = [] := by
  have parses : (match tokenizeFrom .language defaultFile 0 .initial #[] hugeFloatText with
      | .ok tokens => (parse tokens).isOk && (tokens.toList.filter Token.isNumber).map
          (fun token => (token.kind, token.value)) ==
            [(.float, String.ofList ('1' :: List.replicate 309 '0' ++ '.' :: ['5']))]
      | .error _ => false) = true := by decide +kernel
  rw [← @String.toList_ofList hugeFloatText] at parses
  split at parses
  · rename_i tokens ht
    have ht : tokenize hugeFloat = .ok tokens := ht
    obtain ⟨parses, numbers⟩ := Bool.and_eq_true_iff.mp parses
    obtain ⟨tree, hp⟩ := exists_of_isOk parses
    obtain ⟨token, number, same⟩ := List.map_eq_singleton_iff.mp (beq_iff_eq.mp numbers)
    obtain ⟨float, text⟩ := Prod.mk.inj same
    have read : Binary64.read? token.value = some (.infinite false) := by
      have zeros : ∀ c ∈ List.replicate 309 '0', isDigit c = true := fun c member => by
        rw [List.eq_of_mem_replicate member]
        rfl
      rw [text, Binary64.read?_pointed (.inl (List.cons_ne_nil _ _))
        (List.forall_mem_cons.mpr ⟨rfl, zeros⟩) (List.forall_mem_singleton.mpr rfl)]
      exact congrArg some (by decide +kernel)
    obtain ⟨program, reads⟩ | ⟨other, member, ⟨kind, -⟩, -⟩ := readable_of_parse ht hp
    · obtain ⟨-, floats⟩ := numbers_of_ofTree ht hp reads
      have literals := numbers_toJson_of_ofTree ht hp reads
      rw [← ofKind_isNumber (.inr rfl), number] at floats
      rw [number] at literals
      have floats : program.floats = [.infinite false] := by
        simpa [ofKind, float, read] using floats
      have literals : program.toJson.numbers = [.float (.infinite false)] := by
        simpa [Token.literal?, float, read] using literals
      refine ⟨program, by rw [readSource_of_parse ht hp, reads]; rfl, floats, rfl, ?_⟩
      intro compactly
      refine ⟨_, Json.read?_render compactly program.toJson, ?_⟩
      rw [Json.numbers_denoted, literals]
      rfl
    · have among : other ∈ tokens.toList.filter Token.isNumber :=
        List.mem_filter.mpr ⟨Array.mem_toList_iff.mpr member, by simp [Token.isNumber, kind]⟩
      rw [number, List.mem_singleton] at among
      rw [among, float] at kind
      cases kind
  · cases parses

end PseudoLang
