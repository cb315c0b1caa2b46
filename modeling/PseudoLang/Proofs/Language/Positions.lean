import PseudoLang.Proofs.Language.Parse
import PseudoLang.Proofs.Language.Safety
import PseudoLang.Proofs.Source.Lines
import PseudoLang.Proofs.Token.Stream
import PseudoLang.Proofs.Token.Truncation
import PseudoLang.Report

/-!
Where errors point to. An error of the lexemes stands where they can be read no further, one of the
parse at the start of a token (`position_of_parse`), and one of the tree at the start of the source.
All of these are places in the source, so that a report can show the line (`errors_in_source`).
-/

namespace PseudoLang

open Text (byteCount byteCount_append byteCount_cons byteCount_nil)

/-! ## Lines that are shown -/

/-- The report of an error shows the line that the error is in, with its number. -/
def Report.ShowsLine (error : Error) (source : String) : Prop :=
  ∃ place, Source.place? source.toList error.position.offset.toNat = some place ∧
    toString place.line ++ " | " ++ shownLine place ∈ excerpt error source

theorem Report.showsLine_of_le {error : Error} {source : String}
    (h : error.position.offset.toNat ≤ byteCount source.toList) : ShowsLine error source := by
  obtain ⟨place, found⟩ := Option.isSome_iff_exists.mp (Source.place?_isSome_iff.mpr h)
  refine ⟨place, found, ?_⟩
  rw [excerpt, found]
  simp

namespace Position.Within

variable {source : List Char} {file : String} {position : Position}

/-- In a short source, offsets fit into a word. -/
theorem offset_eq (short : byteCount source < UInt32.size) {front back : List Char}
    (same : source = front ++ back) : (byteCount front).toUInt32.toNat = byteCount front := by
  have inside : byteCount front ≤ byteCount source := by
    rw [same, byteCount_append]
    exact Nat.le_add_right _ _
  exact UInt32.toNat_ofNat_of_lt' (lt_of_le_of_lt inside short)

theorem offset_le (h : position.Within source file) (short : byteCount source < UInt32.size) :
    position.offset.toNat ≤ byteCount source := by
  obtain ⟨front, back, same, rfl⟩ := h
  rw [offset_eq short same, same, byteCount_append]
  exact Nat.le_add_right _ _

end Position.Within

/-! ## Ends of a parse -/

namespace Grammar

/-- An end of a parse that stands at a cursor, if it is an error. -/
def Halt.At (p : Parser) (halt : Halt) : Prop :=
  ∀ error, halt = .error error → ∃ cursor, error.position = p.position cursor

namespace Parser

open Parse

variable {p : Parser}

theorem at_position (cause : Cause) (cursor : Nat) :
    Halt.At p (.error ⟨cause, p.position cursor⟩) := by
  rintro _ ⟨⟩
  exact ⟨cursor, rfl⟩

theorem inherited_haltsAt (p : Parser) :
    p.Inherited (fun _ => True) fun _ => HaltsAs (Halt.At p) where
  toSequential := sequential_haltsAs
  opening names h := h.opening names
  deeper h := h.deeper
  tooDeep cursor _ _ := at_position _ cursor
  failSyntax _ _ _ := at_position _ _
  unresolved _ _ cursor _ := at_position _ cursor
  unknownFilter _ _ cursor _ := at_position _ cursor
  filtered _ _ cursor _ := at_position _ cursor
  loop _ _ := good_repetition sequential_haltsAs fun _ => nofun

/-- Where there are tokens, a cursor stands at the start of one of them. -/
theorem position_of_mem (some : p.tokens ≠ #[]) (cursor : Nat) :
    ∃ token ∈ p.tokens, p.position cursor = token.span.start := by
  unfold position
  cases here : p.tokens[cursor]? with
  | some token => exact ⟨token, Array.mem_of_getElem? here, rfl⟩
  | none =>
    cases last : p.tokens.back? with
    | some token => exact ⟨token, Array.mem_of_back? last, rfl⟩
    | none => exact absurd (Array.back?_eq_none_iff.mp last) some

end Parser

end Grammar

open Grammar

/-- An error of the parse stands at the start of a token. -/
theorem position_of_parse {tokens : Array Token} {file : String} {error : Error}
    (some : tokens ≠ #[]) (h : parse tokens file = .error (.error error)) :
    ∃ token ∈ tokens, error.position = token.span.start := by
  have halts := (Parser.inherited_haltsAt (languageParser tokens file)).evaluateWithin
    (closed_true _) maxDepth (.reference "file") trivial 0 .initial
  unfold parse Parser.parseFile at h
  rw [parseRule_initial] at h
  generalize Parse.runFrom _ _ = outcome at h halts
  obtain ⟨halt | result, after⟩ := outcome
  · obtain rfl := Except.error.inj h
    obtain ⟨cursor, there⟩ := halts error rfl
    rw [there]
    exact Parser.position_of_mem (p := languageParser tokens file) some cursor
  · dsimp only at h
    split at h
    · rename_i token found
      split at h
      · cases h
      · cases h
        exact ⟨token, Array.mem_of_getElem? found, rfl⟩
    · cases h

/-! ## Errors and their sources -/

/-- An error of a source points into it, and a report shows the line. The part of the source before
an error of the lexemes is read without one; an error of the parse stands at the start of a token;
and an error of the tree, which has no place of its own, is shown at the start of the source. -/
theorem errors_in_source (vocabulary : Vocabulary) (source : String) (name : Option String)
    (short : byteCount source.toList < UInt32.size) :
    (∀ error, tokenize source (name.getD defaultFile) vocabulary = .error error →
      error.position.file = name.getD defaultFile ∧
      (∃ front back, source.toList = front ++ back ∧
        error.position.offset.toNat = byteCount front ∧
        ∃ tokens, tokenize (String.ofList front) (name.getD defaultFile) vocabulary = .ok tokens) ∧
      Report.ShowsLine error source) ∧
    (∀ tokens, tokenize source (name.getD defaultFile) vocabulary = .ok tokens →
      ∀ file halt, parse tokens file = .error halt →
        ∃ error, halt = .error error ∧
          (∃ token ∈ tokens, error.position = token.span.start) ∧
          Report.ShowsLine error source) ∧
    ∀ cause, Report.ShowsLine (.nowhere cause) source := by
  generalize name.getD defaultFile = file
  refine ⟨?_, ?_, ?_⟩
  · intro error failed
    obtain ⟨front, back, same, position, read⟩ := exists_front_of_tokenize failed
    have within : error.position.Within source.toList file := ⟨front, back, same, position⟩
    refine ⟨by rw [position], ⟨front, back, same, ?_, read⟩,
      Report.showsLine_of_le (within.offset_le short)⟩
    rw [position]
    exact Position.Within.offset_eq short same
  · intro tokens read other halt failed
    have some : tokens ≠ #[] := by
      rintro rfl
      obtain ⟨content, stop, same, -⟩ := tokenize_eq_ok read
      simp at same
    obtain ⟨tree, parsed⟩ | ⟨error, parsed, -⟩ := parse_tree_or_fault tokens other
    · rw [parsed] at failed
      cases failed
    · rw [parsed] at failed
      cases failed
      obtain ⟨token, member, start⟩ := position_of_parse some parsed
      have within := starts_of_tokenize read token member
      rw [← start] at within
      exact ⟨error, rfl, ⟨token, member, start⟩,
        Report.showsLine_of_le (within.offset_le short)⟩
  · exact fun cause => Report.showsLine_of_le (Nat.zero_le _)

/-- A number with two points. -/
def pointsSource : String := "x\n1..2"

/-- An expression that ends with an operator. -/
def unfinishedSource : String := "start\n  output x +"

def unfinishedTokens : Array Token :=
  #[.spanning "shell" 0 5 .keyword "start", .spanning "shell" 8 8 .indent "",
    .spanning "shell" 8 14 .keyword "output", .spanning "shell" 15 16 .name "x",
    .spanning "shell" 17 18 .operator "+", .spanning "shell" 18 18 .eof ""]

theorem errors_in_source_twoFaults :
    ((∃ front back, pointsSource.toList = front ++ back ∧ 2 = byteCount front ∧
        ∃ tokens, tokenize (String.ofList front) "points.txt" = .ok tokens) ∧
      Report.ShowsLine ⟨.malformedNumber "1..", ⟨2, "points.txt"⟩⟩ pointsSource) ∧
    ∃ error, parse unfinishedTokens "shell" = .error (.error error) ∧
      (∃ token ∈ unfinishedTokens, error.position = token.span.start) ∧
      Report.ShowsLine error unfinishedSource := by
  constructor
  · have failed : tokenize pointsSource "points.txt" =
        .error ⟨.malformedNumber "1..", ⟨2, "points.txt"⟩⟩ := by decide +kernel
    obtain ⟨-, before, shown⟩ := (errors_in_source .language pointsSource (some "points.txt")
      (by decide)).1 _ failed
    exact ⟨before, shown⟩
  · have read : tokenize unfinishedSource "shell" = .ok unfinishedTokens := by decide +kernel
    have fails : (parse unfinishedTokens "shell").isOk = false := by decide +kernel
    cases failed : parse unfinishedTokens "shell" with
    | ok tree =>
      rw [failed] at fails
      cases fails
    | error halt =>
      obtain ⟨error, rfl, start, shown⟩ := (errors_in_source .language unfinishedSource none
        (by decide)).2.1 unfinishedTokens read "shell" halt failed
      exact ⟨error, rfl, start, shown⟩

end PseudoLang
