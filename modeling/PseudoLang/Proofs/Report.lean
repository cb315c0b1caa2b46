import Mathlib.Data.List.TakeWhile
import PseudoLang.Proofs.Number.Numeral
import PseudoLang.Proofs.Source.Lines
import PseudoLang.Report
import PseudoLang.Token.Stream

/-!
The mark in the report of an error. The bars of the two lines stand in the same column, and the mark
stands as many columns after them as the text that is shown before the place has bytes. That is the
column of the character at the place if all of this text is in ASCII (`mark_column`); after other
characters the mark is too far to the right (`mark_after_accent`).
-/

namespace PseudoLang

open Text (byteCount byteCount_append byteCount_cons isBlank trimEnd)
open Source (EndsLine firstLine)

/-! ## White space at the end -/

namespace Text

variable {ds : List Char}

theorem trimEnd_append_of_blank (cs : List Char) (h : ∀ c ∈ ds, isBlank c = true) :
    trimEnd (cs ++ ds) = trimEnd cs := by
  have all : ∀ c ∈ ds.reverse, isBlank c = true := by simpa using h
  rw [trimEnd, trimEnd, List.reverse_append, List.dropWhile_append_of_pos all]

/-- What stands before something visible is not trimmed. -/
theorem trimEnd_append_of_visible (cs : List Char) (h : ∃ c ∈ ds, isBlank c = false) :
    trimEnd (cs ++ ds) = cs ++ trimEnd ds ∧ trimEnd ds ≠ [] := by
  have stops : ds.reverse.dropWhile isBlank ≠ [] := by
    obtain ⟨c, member, visible⟩ := h
    intro none_left
    have blank := List.dropWhile_eq_nil_iff.mp none_left c (List.mem_reverse.mpr member)
    rw [visible] at blank
    cases blank
  constructor
  · rw [trimEnd, trimEnd, List.reverse_append, List.dropWhile_append, if_neg (by simpa using stops),
      List.reverse_append, List.reverse_reverse]
  · rw [trimEnd]
    simpa using stops

end Text

namespace Report

/-! ## Places in lines -/

/-- The blanks that a line may be indented by. -/
def isIndent (c : Char) : Bool := c == ' ' || c == '\t'

theorem indentation_eq (line : List Char) :
    indentation line = (line.takeWhile isIndent).length := rfl

theorem byteCount_of_isIndent {cs : List Char} (h : ∀ c ∈ cs, isIndent c = true) :
    byteCount cs = cs.length := by
  induction cs with
  | nil => rfl
  | cons c cs ih =>
    obtain ⟨here, rest⟩ := List.forall_mem_cons.mp h
    have one : c.utf8Size = 1 := by
      obtain rfl | rfl : c = ' ' ∨ c = '\t' := by simpa [isIndent] using here
      · rfl
      · rfl
    rw [byteCount_cons, one, ih rest, List.length_cons, Nat.add_comm]

variable {front back lines blanks shown : List Char}

/-- The offset between `front` and `back` is inside the blanks that its line starts with. -/
def InIndentation (front back : List Char) : Prop :=
  ∃ lines blanks, front = lines ++ blanks ∧ EndsLine lines ∧ (∀ c ∈ blanks, isIndent c = true) ∧
    ∃ c ∈ back.head?, isIndent c = true

/-- Where an offset is in its line: after the lines before it, the blanks that the line starts with,
and what is shown of it up to the offset. -/
structure Shows (front back lines blanks shown : List Char) : Prop where
  front_eq : front = lines ++ (blanks ++ shown)
  starts : EndsLine lines
  oneLine : '\n' ∉ blanks ++ shown
  indents : ∀ c ∈ blanks, isIndent c = true
  indented : ∀ c ∈ (shown ++ back).head?, isIndent c = false

/-- An offset outside the indentation of its line shows its line up to there. -/
theorem exists_shows (outside : ¬ InIndentation front back) :
    ∃ lines blanks shown, Shows front back lines blanks shown := by
  obtain ⟨lines, opened, rfl, starts, oneLine⟩ := Source.exists_lastLine front
  have whole : opened.takeWhile isIndent ++ opened.dropWhile isIndent = opened :=
    List.takeWhile_append_dropWhile
  have indents : ∀ c ∈ opened.takeWhile isIndent, isIndent c = true :=
    fun c member => List.mem_takeWhile_imp member
  refine ⟨lines, opened.takeWhile isIndent, opened.dropWhile isIndent, by rw [whole], starts,
    by rwa [whole], indents, ?_⟩
  cases rest : opened.dropWhile isIndent with
  | nil =>
    rw [rest, List.append_nil] at whole
    intro c next
    refine Bool.eq_false_iff.mpr fun blank => outside ?_
    exact ⟨lines, opened, rfl, starts, whole ▸ indents, c, next, blank⟩
  | cons d shown =>
    have stops := List.head?_dropWhile_not isIndent opened
    rw [rest] at stops
    rintro _ ⟨⟩
    simpa using stops

theorem Shows.indentation_line (h : Shows front back lines blanks shown) :
    indentation (blanks ++ (shown ++ firstLine back)) = blanks.length := by
  have heads : (shown ++ firstLine back).head? = (shown ++ back).head? := by
    rw [List.head?_append, List.head?_append, Source.head?_firstLine]
  have stops : ∀ c ∈ (shown ++ firstLine back).head?, isIndent c = false := by
    rw [heads]
    exact h.indented
  rw [indentation_eq, (Number.span_append h.indents stops).1]

/-! ## Columns -/

/-- The column, counted in characters, in which a character first stands in a printed line. -/
def columnOf (mark : Char) (line : String) : Option Nat := line.toList.idxOf? mark

theorem columnOf_eq {mark : Char} {line : String} {cs ds : List Char}
    (same : line.toList = cs ++ mark :: ds) (fresh : mark ∉ cs) :
    columnOf mark line = some cs.length := by
  rw [columnOf, same]
  clear same
  induction cs with
  | nil => simp [List.idxOf?_cons]
  | cons c cs ih =>
    obtain ⟨other, fresh⟩ := List.ne_and_not_mem_of_not_mem_cons fresh
    rw [List.cons_append, List.idxOf?_cons, ih fresh]
    simp [Ne.symm other]

theorem toList_toString (n : Nat) : (toString n).toList = Number.digits n := by
  rw [Nat.toString_eq_repr, Nat.repr, Number.digits, String.toList_ofList]

theorem bar_not_mem_number (n : Nat) : '|' ∉ (toString n).toList := by
  rw [toList_toString]
  intro member
  exact Bool.false_ne_true (Number.isDigit_of_mem_digits member)

/-- A text takes as many bytes as characters if each of them takes one. -/
theorem byteCount_eq_length_iff {cs : List Char} :
    byteCount cs = cs.length ↔ ∀ c ∈ cs, c.utf8Size = 1 := by
  induction cs with
  | nil => simp
  | cons c cs ih =>
    have positive := Char.utf8Size_pos c
    have least := Text.length_le_byteCount cs
    rw [byteCount_cons, List.length_cons, List.forall_mem_cons, ← ih]
    omega

/-! ## The mark under a place -/

/-- The two lines of a report that show a place: the line of the source, as far as it is visible,
and below it a mark in the column `caret`. Both have a bar in the column `bar`, and the text of the
line begins two columns after it. -/
structure Marked (text : List Char) (bar caret : Nat) (printed below : String) : Prop where
  bar_printed : columnOf '|' printed = some bar
  bar_below : columnOf '|' below = some bar
  text_eq : ∃ heading, heading.length = bar + 2 ∧ printed.toList = heading ++ trimEnd text
  caret_below : columnOf '^' below = some caret

/-- The two lines for a text and a mark, behind a margin as wide as the number of the line. -/
theorem marked_lines {number : String} (noBar : '|' ∉ number.toList) (text : List Char)
    (dashes : Nat) :
    Marked text (number.length + 1) (number.length + 1 + 2 + dashes)
      (number ++ " | " ++ String.ofList (trimEnd text))
      (margin (number.length + 2) ++ " " ++
        (String.ofList (List.replicate dashes '-') ++ "^")) := by
  have printed : (number ++ " | " ++ String.ofList (trimEnd text)).toList =
      (number.toList ++ [' ']) ++ '|' :: ' ' :: trimEnd text := by
    simp
  have below : (margin (number.length + 2) ++ " " ++
      (String.ofList (List.replicate dashes '-') ++ "^")).toList =
      List.replicate (number.length + 1) ' ' ++
        '|' :: ' ' :: (List.replicate dashes '-' ++ ['^']) := by
    simp [margin]
  have width : (number.toList ++ [' ']).length = number.length + 1 := by
    rw [List.length_append, String.length_toList, List.length_singleton]
  refine ⟨?_, ?_, ?_, ?_⟩
  · rw [columnOf_eq printed (by simpa using noBar), width]
  · rw [columnOf_eq below (by simp), List.length_replicate]
  · refine ⟨(number.toList ++ [' ']) ++ ['|', ' '], ?_, ?_⟩
    · rw [List.length_append, width]
      rfl
    · rw [printed]
      simp
  · have split : '|' :: ' ' :: (List.replicate dashes '-' ++ ['^']) =
        ('|' :: ' ' :: List.replicate dashes '-') ++ ['^'] := rfl
    rw [split, ← List.append_assoc] at below
    rw [columnOf_eq below (by simp)]
    have columns : (List.replicate (number.length + 1) ' ' ++
        '|' :: ' ' :: List.replicate dashes '-').length = number.length + 1 + 2 + dashes := by
      simp only [List.length_append, List.length_replicate, List.length_cons]
      omega
    rw [columns]

/-- The report of an error outside the indentation of its line. The mark is as many columns to the
right of the start of the line as there are bytes before the place. -/
theorem exists_marked {error : Error} {source : String} (same : source.toList = front ++ back)
    (offset : error.position.offset.toNat = byteCount front)
    (h : Shows front back lines blanks shown) :
    ∃ top printed below bar, excerpt error source = [top, printed, below] ∧
      Marked (shown ++ firstLine back) bar (bar + 2 + byteCount shown) printed below := by
  have split : source.toList = lines ++ ((blanks ++ shown) ++ back) := by
    rw [same, h.front_eq, List.append_assoc]
  have found : Source.place? source.toList error.position.offset.toNat =
      some ⟨1 + lines.count '\n', blanks ++ (shown ++ firstLine back),
        byteCount (blanks ++ shown)⟩ := by
    rw [split, offset, h.front_eq, byteCount_append, Source.place?_append h.starts h.oneLine,
      List.append_assoc]
  have dashes : byteCount (blanks ++ shown) - blanks.length = byteCount shown := by
    rw [byteCount_append, byteCount_of_isIndent h.indents, Nat.add_sub_cancel_left]
  simp only [excerpt, found, shownLine, caret, h.indentation_line, dashes, List.drop_left]
  exact ⟨_, _, _, _, rfl, marked_lines (bar_not_mem_number _) _ _⟩

/-- The report of an error that stands between two characters, outside the indentation of its line,
has a bar in the same column of the source line and of the line with the mark. The source line is
shown without its indentation and without white space at its end. The mark stands in the column of
the character at the place if every character that is shown before it takes one byte, and only
then. If anything visible follows in the line, the character at the place is shown in that column;
otherwise the printed line ends with the last visible character before the place. -/
theorem mark_column (error : Error) (source file : String) (same : source.toList = front ++ back)
    (offset : error.position.offset.toNat = byteCount front)
    (outside : ¬ InIndentation front back) :
    ∃ lines blanks shown top printed below bar, Shows front back lines blanks shown ∧
      render error source file =
        String.join ([title error, "-> " ++ file, top, printed, below].map (· ++ "\n")) ∧
      Marked (shown ++ firstLine back) bar (bar + 2 + byteCount shown) printed below ∧
      (columnOf '^' below = some (bar + 2 + shown.length) ↔ ∀ c ∈ shown, c.utf8Size = 1) ∧
      ((∃ c ∈ firstLine back, isBlank c = false) →
        printed.toList[bar + 2 + shown.length]? = back.head?) ∧
      ((∀ c ∈ firstLine back, isBlank c = true) →
        printed.length = bar + 2 + (trimEnd shown).length) := by
  obtain ⟨lines, blanks, shown, shows⟩ := exists_shows outside
  obtain ⟨top, printed, below, bar, excerpt_eq, marked⟩ := exists_marked same offset shows
  refine ⟨lines, blanks, shown, top, printed, below, bar, shows, ?_, marked, ?_, ?_, ?_⟩
  · rw [render, excerpt_eq]
  · rw [marked.caret_below, Option.some_inj, Nat.add_left_cancel_iff, byteCount_eq_length_iff]
  · intro visible
    obtain ⟨heading, width, text⟩ := marked.text_eq
    obtain ⟨kept, some⟩ := Text.trimEnd_append_of_visible shown visible
    obtain ⟨tail, whole⟩ := Text.trimEnd_prefix (firstLine back)
    have first : (trimEnd (firstLine back) ++ tail).head? = (trimEnd (firstLine back)).head? :=
      List.head?_append_of_ne_nil _ some
    rw [whole, Source.head?_firstLine] at first
    rw [text, kept, ← width, List.getElem?_append_right (Nat.le_add_right _ _),
      Nat.add_sub_cancel_left, List.getElem?_append_right (Nat.le_refl _), Nat.sub_self,
      ← List.head?_eq_getElem?, first]
  · intro blank
    obtain ⟨heading, width, text⟩ := marked.text_eq
    rw [Text.trimEnd_append_of_blank shown blank] at text
    rw [← String.length_toList, text, List.length_append, width]

/-- A character that no token starts with, after a word in an indented line. -/
def wordSource : String := "é\n\toutput $"

theorem mark_column_word :
    ¬ InIndentation "é\n\toutput ".toList ['$'] ∧
    ∃ lines blanks shown top printed below bar,
      Shows "é\n\toutput ".toList ['$'] lines blanks shown ∧
      render ⟨.unrecognisedToken "$", ⟨11, "w"⟩⟩ wordSource "w" =
        String.join (["Error: UnrecognisedToken", "-> w", top, printed, below].map (· ++ "\n")) ∧
      Marked (shown ++ ['$']) bar (bar + 2 + byteCount shown) printed below ∧
      printed.toList[bar + 2 + shown.length]? = some '$' := by
  have outside : ¬ InIndentation "é\n\toutput ".toList ['$'] := by
    rintro ⟨_, _, _, _, _, _, ⟨⟩, blank⟩
    cases blank
  obtain ⟨lines, blanks, shown, top, printed, below, bar, shows, rendered, marked, -, visible, -⟩ :=
    mark_column ⟨.unrecognisedToken "$", ⟨11, "w"⟩⟩ wordSource "w" (by decide +kernel)
      (by decide +kernel) outside
  exact ⟨outside, lines, blanks, shown, top, printed, below, bar, shows, rendered, marked,
    visible ⟨'$', by decide, by decide⟩⟩

/-- A character that no token starts with, after a letter with an accent. -/
def accentSource : String := "start\n\toutput \"é\" $"

/-- The letter takes two bytes: the mark is one column to the right of the character. -/
theorem mark_after_accent :
    ∃ error top printed below, tokenize accentSource "shell" = .error error ∧
      excerpt error accentSource = [top, printed, below] ∧
      columnOf '$' printed = some 15 ∧ columnOf '^' below = some 16 := by
  refine ⟨⟨.unrecognisedToken "$", ⟨19, "shell"⟩⟩, _, _, _, by decide +kernel, rfl, ?_, ?_⟩
  · decide +kernel
  · decide +kernel

end Report

end PseudoLang
