import PseudoLang.Source

/-!
The line that a place is in. A source is cut into the lines before the place, its own line, and the
lines after it (`Place.Stands`); the search for a byte offset comes to such a place wherever the
offset is inside the source (`exists_stands_of_place?`). The number of the line is one more than the
line breaks before the offset, counted in characters or in bytes, so that line and column together
tell the offset (`place?_exact`).
-/

namespace PseudoLang

/-! ## Bytes of a text -/

namespace Text

/-- The UTF-8 form of a text. -/
def bytes (cs : List Char) : List UInt8 := cs.flatMap String.utf8EncodeChar

@[simp] theorem bytes_nil : bytes [] = [] := rfl

@[simp] theorem bytes_cons (c : Char) (cs : List Char) :
    bytes (c :: cs) = String.utf8EncodeChar c ++ bytes cs := rfl

@[simp] theorem bytes_append (cs ds : List Char) : bytes (cs ++ ds) = bytes cs ++ bytes ds :=
  List.flatMap_append

@[simp] theorem length_bytes (cs : List Char) : (bytes cs).length = byteCount cs := by
  induction cs with
  | nil => rfl
  | cons c cs ih => simp [ih]

theorem bytes_toList (source : String) : source.toUTF8.data.toList = bytes source.toList := by
  rw [String.toUTF8_eq_toByteArray, ← String.utf8Encode_toList, List.utf8Encode,
    List.data_toByteArray]
  rfl

theorem utf8ByteSize_eq_byteCount (source : String) :
    source.utf8ByteSize = byteCount source.toList := by
  rw [← length_bytes, ← bytes_toList, String.toUTF8_eq_toByteArray, ← String.size_toByteArray]
  rfl

/-- The byte of a line break. -/
def lineFeed : UInt8 := 10

/-- No other character has the byte of a line break in its form. -/
theorem count_utf8EncodeChar (c : Char) :
    (String.utf8EncodeChar c).count lineFeed = if c = '\n' then 1 else 0 := by
  have byte (n : Nat) : UInt8.ofNat n = lineFeed ↔ n % 256 = 10 := by
    rw [← UInt8.toNat_inj, UInt8.toNat_ofNat']
    rfl
  have code : c = '\n' ↔ c.val.toNat = 10 := by
    rw [← Char.val_inj, ← UInt32.toNat_inj]
    rfl
  by_cases ascii : c.val.toNat ≤ 127
  · simp only [String.utf8EncodeChar, if_pos ascii, List.count_singleton, beq_iff_eq, byte, code]
    rw [Nat.mod_eq_of_lt (by omega)]
  · have other : ¬ c = '\n' := by rw [code]; omega
    rw [if_neg other, List.count_eq_zero, String.utf8EncodeChar]
    simp only [if_neg ascii]
    split <;> (try split) <;>
      simp only [List.mem_cons, List.not_mem_nil, or_false, eq_comm (a := lineFeed), byte] <;> omega

theorem count_bytes (cs : List Char) : (bytes cs).count lineFeed = cs.count '\n' := by
  induction cs with
  | nil => rfl
  | cons c cs ih =>
    rw [bytes_cons, List.count_append, count_utf8EncodeChar, ih, List.count_cons, Nat.add_comm]
    simp

end Text

open Text (byteCount bytes lineFeed byteCount_append byteCount_cons byteCount_nil)

namespace Source

variable {source cs start : List Char} {line column offset : Nat} {place : Place}

/-! ## Lines -/

/-- Text that lines begin after: the start of a source, or what ends with a line break. -/
def EndsLine (before : List Char) : Prop := before = [] ∨ before.getLast? = some '\n'

theorem EndsLine.after_break {before : List Char} (h : EndsLine before) (earlier : List Char) :
    EndsLine (earlier ++ '\n' :: before) := by
  right
  obtain rfl | last := h
  · rw [List.getLast?_append]
    rfl
  · rw [List.getLast?_append, List.getLast?_cons, last]
    rfl

/-- How a place stands in a source. `before` holds the lines before its own, `body` what its own
line holds, `ending` the line break, which only the last line may go without, and `after` the rest.
-/
structure Place.Stands (place : Place) (source before body ending after : List Char) : Prop where
  source_eq : source = before ++ (place.text ++ after)
  text_eq : place.text = body ++ ending
  starts : EndsLine before
  oneLine : '\n' ∉ body
  ends : ending = ['\n'] ∨ ending = [] ∧ after = []
  column_le : place.column ≤ byteCount body

theorem firstLine_append {opened : List Char} (inLine : '\n' ∉ opened) (cs : List Char) :
    firstLine (opened ++ cs) = opened ++ firstLine cs := by
  have passes : ∀ c ∈ opened, (c != '\n') = true := by
    intro c member
    rw [bne_iff_ne]
    rintro rfl
    exact inLine member
  rw [firstLine, firstLine, List.takeWhile_append_of_pos passes,
    List.dropWhile_append_of_pos passes, List.append_assoc]

theorem firstLine_eq_self (inLine : '\n' ∉ cs) : firstLine cs = cs := by
  have none_after : firstLine [] = [] := rfl
  have alone := firstLine_append inLine []
  rwa [none_after, List.append_nil] at alone

theorem head?_firstLine (cs : List Char) : (firstLine cs).head? = cs.head? := by
  cases cs with
  | nil => rfl
  | cons c cs => by_cases here : c = '\n' <;> simp [firstLine, here]

/-- A text starts with a line: up to the first line break, or all of it if there is none. -/
theorem exists_firstLine (cs : List Char) :
    ∃ body ending after, cs = firstLine cs ++ after ∧ firstLine cs = body ++ ending ∧
      '\n' ∉ body ∧ (ending = ['\n'] ∨ ending = [] ∧ after = []) := by
  by_cases broken : '\n' ∈ cs
  · obtain ⟨body, after, rfl, inLine⟩ := List.eq_append_cons_of_mem broken
    have line : firstLine ('\n' :: after) = ['\n'] := rfl
    refine ⟨body, ['\n'], after, ?_, ?_, inLine, .inl rfl⟩ <;>
      simp [firstLine_append inLine, line]
  · refine ⟨cs, [], [], ?_, ?_, broken, .inr ⟨rfl, rfl⟩⟩ <;> simp [firstLine_eq_self broken]

/-- An offset inside a character stands in the line that this character is in. -/
theorem exists_stands_firstLine {opened : List Char} (inLine : '\n' ∉ opened) {c : Char}
    (here : offset < c.utf8Size) (line : Nat) (rest : List Char) :
    ∃ body ending after,
      Place.Stands ⟨line, firstLine (opened ++ c :: rest), byteCount opened + offset⟩
        (opened ++ c :: rest) [] body ending after := by
  obtain ⟨body, ending, after, whole, text, inBody, ends⟩ := exists_firstLine (c :: rest)
  have goesOn : offset ≤ byteCount body := by
    rw [text] at whole
    cases body with
    | nil =>
      obtain rfl | ⟨rfl, rfl⟩ := ends
      · obtain ⟨rfl, -⟩ := List.cons.inj whole
        exact Nat.le_of_lt_succ here
      · cases whole
    | cons d body =>
      obtain ⟨rfl, -⟩ := List.cons.inj whole
      rw [byteCount_cons]
      omega
  refine ⟨opened ++ body, ending, after, ?_, ?_, .inl rfl, by simp [inLine, inBody], ends, ?_⟩
  · rw [firstLine_append inLine, List.nil_append, List.append_assoc, ← whole]
  · rw [firstLine_append inLine, text, List.append_assoc]
  · rw [byteCount_append]
    exact Nat.add_le_add_left goesOn _

/-- The search finds the line that the offset is in, `opened` being what it has passed of the line
that it is in itself. -/
theorem exists_stands_of_placeFrom {opened : List Char} (inLine : '\n' ∉ opened)
    (found : placeFrom line (byteCount opened) (opened ++ cs) offset cs = some place) :
    ∃ before body ending after, place.Stands (opened ++ cs) before body ending after ∧
      byteCount before + place.column = byteCount opened + offset ∧
      place.line = line + before.count '\n' := by
  induction cs generalizing opened line offset with
  | nil =>
    rw [placeFrom] at found
    split at found
    · rename_i here
      cases found
      refine ⟨[], opened, [], [], ⟨?_, ?_, .inl rfl, inLine, .inr ⟨rfl, rfl⟩, ?_⟩, ?_, ?_⟩ <;>
        simp [firstLine_eq_self inLine, here]
    · cases found
  | cons c rest ih =>
    rw [placeFrom] at found
    split at found
    · rename_i here
      cases found
      obtain ⟨body, ending, after, stands⟩ := exists_stands_firstLine inLine here line rest
      exact ⟨[], body, ending, after, stands, by simp, by simp⟩
    · rename_i further
      split at found
      · rename_i atBreak
        subst atBreak
        have fresh : '\n' ∉ ([] : List Char) := List.not_mem_nil
        obtain ⟨before, body, ending, after, stands, offset_eq, line_eq⟩ := ih fresh found
        have size : ('\n' : Char).utf8Size = 1 := rfl
        refine ⟨opened ++ '\n' :: before, body, ending, after,
          { stands with source_eq := ?_, starts := stands.starts.after_break opened }, ?_, ?_⟩
        · rw [List.append_assoc, List.cons_append, ← stands.source_eq, List.nil_append]
        · rw [byteCount_append, byteCount_cons]
          rw [byteCount_nil, Nat.zero_add] at offset_eq
          omega
        · rw [line_eq, List.count_append, List.count_eq_zero.mpr inLine, List.count_cons_self]
          omega
      · rename_i noBreak
        have passed : byteCount opened + c.utf8Size = byteCount (opened ++ [c]) := by simp
        have same : opened ++ c :: rest = (opened ++ [c]) ++ rest := by simp
        rw [passed, same] at found
        obtain ⟨before, body, ending, after, stands, offset_eq, line_eq⟩ :=
          ih (by simp [inLine, Ne.symm noBreak]) found
        rw [same]
        refine ⟨before, body, ending, after, stands, ?_, line_eq⟩
        rw [offset_eq, ← passed]
        omega

theorem exists_stands_of_place? (found : place? source offset = some place) :
    ∃ before body ending after, place.Stands source before body ending after ∧
      byteCount before + place.column = offset ∧ place.line = 1 + before.count '\n' := by
  have fresh : '\n' ∉ ([] : List Char) := List.not_mem_nil
  simpa using exists_stands_of_placeFrom fresh found

namespace Place.Stands

variable {before body ending after : List Char}

/-- The line breaks before a place are those of the lines before its own. -/
theorem count_bytes (h : place.Stands source before body ending after) :
    ((bytes source).take (byteCount before + place.column)).count lineFeed =
      before.count '\n' := by
  have inside : place.column ≤ (bytes body).length := by
    rw [Text.length_bytes]
    exact h.column_le
  have none_here : ((bytes body).take place.column).count lineFeed = 0 := by
    have all : (bytes body).count lineFeed = 0 := by
      rw [Text.count_bytes, List.count_eq_zero]
      exact h.oneLine
    have fewer := (List.take_sublist place.column (bytes body)).count_le lineFeed
    omega
  rw [h.source_eq, h.text_eq, List.append_assoc, Text.bytes_append, Text.bytes_append,
    ← Text.length_bytes, List.take_length_add_append, List.count_append, Text.count_bytes,
    List.take_append_of_le_length inside, none_here, Nat.add_zero]

end Place.Stands

theorem eq_nil_of_endsLine {before more : List Char} (h : EndsLine (before ++ more))
    (none_more : more.count '\n' = 0) : more = [] := by
  obtain nil | last := h
  · exact (List.append_eq_nil_iff.mp nil).2
  · rw [List.getLast?_append] at last
    cases found : more.getLast? with
    | none => exact List.getLast?_eq_none_iff.mp found
    | some c =>
      rw [found] at last
      cases last
      exact absurd (List.mem_of_getLast? found) (List.count_eq_zero.mp none_more)

/-- As many lines of a source end at the same place. -/
theorem lines_unique {before before' rest rest' : List Char}
    (same : before ++ rest = before' ++ rest') (h : EndsLine before) (h' : EndsLine before')
    (count : before.count '\n' = before'.count '\n') : before = before' := by
  obtain ⟨more, rfl, -⟩ | ⟨more, rfl, -⟩ := List.append_eq_append_iff.mp same
  · rw [List.count_append] at count
    rw [eq_nil_of_endsLine h' (by omega), List.append_nil]
  · rw [List.count_append] at count
    rw [eq_nil_of_endsLine h (by omega), List.append_nil]

/-! ## Offsets and places -/

theorem placeFrom_isSome_iff :
    (placeFrom line column start offset cs).isSome ↔ offset ≤ byteCount cs := by
  induction cs generalizing start line column offset with
  | nil =>
    rw [placeFrom, byteCount_nil, Nat.le_zero]
    split
    · simpa
    · simpa
  | cons c rest ih =>
    rw [placeFrom, byteCount_cons]
    split
    · simp
      omega
    · split
      · rw [ih]
        omega
      · rw [ih]
        omega

/-- Every offset up to the end of a source has a line there. -/
theorem place?_isSome_iff : (place? source offset).isSome ↔ offset ≤ byteCount source :=
  placeFrom_isSome_iff

/-! ## Offsets between characters -/

/-- Every text is made up of lines and the beginning of another. -/
theorem exists_lastLine (cs : List Char) :
    ∃ before opened, cs = before ++ opened ∧ EndsLine before ∧ '\n' ∉ opened := by
  by_cases broken : '\n' ∈ cs.reverse
  · obtain ⟨opened, before, same, inLine⟩ := List.eq_append_cons_of_mem broken
    refine ⟨before.reverse ++ ['\n'], opened.reverse, ?_, .inr (by simp), by simpa using inLine⟩
    rw [← List.reverse_reverse cs, same]
    simp
  · exact ⟨[], cs, rfl, .inl rfl, by simpa using broken⟩

/-- The search passes what belongs to the line. -/
theorem placeFrom_append {opened : List Char} (inLine : '\n' ∉ opened) (column : Nat) :
    placeFrom line column start (byteCount opened + offset) (opened ++ cs) =
      placeFrom line (column + byteCount opened) start offset cs := by
  induction opened generalizing column with
  | nil => simp
  | cons c opened ih =>
    obtain ⟨noBreak, inLine⟩ := List.ne_and_not_mem_of_not_mem_cons inLine
    have passed : ¬ byteCount (c :: opened) + offset < c.utf8Size := by
      rw [byteCount_cons]
      omega
    have rest : byteCount (c :: opened) + offset - c.utf8Size = byteCount opened + offset := by
      rw [byteCount_cons]
      omega
    rw [List.cons_append, placeFrom, if_neg passed, if_neg (Ne.symm noBreak), rest, ih inLine,
      byteCount_cons, Nat.add_assoc]

/-- After whole lines the search begins anew. -/
theorem placeFrom_lines {before : List Char} (ends : before.getLast? = some '\n') (line : Nat) :
    placeFrom line column start (byteCount before + offset) (before ++ cs) =
      placeFrom (line + before.count '\n') 0 cs offset cs := by
  induction before generalizing line column start with
  | nil => cases ends
  | cons c before ih =>
    have passed : ¬ byteCount (c :: before) + offset < c.utf8Size := by
      rw [byteCount_cons]
      omega
    have rest : byteCount (c :: before) + offset - c.utf8Size = byteCount before + offset := by
      rw [byteCount_cons]
      omega
    rw [List.cons_append, placeFrom, if_neg passed, rest]
    cases before with
    | nil =>
      obtain rfl : c = '\n' := by simpa using ends
      simp
    | cons d before =>
      have ends : (d :: before).getLast? = some '\n' := by simpa using ends
      split
      · rename_i atBreak
        rw [ih ends, atBreak, List.count_cons_self, Nat.add_right_comm, Nat.add_assoc]
      · rename_i noBreak
        rw [ih ends, List.count_cons_of_ne noBreak]

/-- The place of an offset between two characters of a line. -/
theorem place?_append {before opened : List Char} (starts : EndsLine before)
    (inLine : '\n' ∉ opened) (after : List Char) :
    place? (before ++ (opened ++ after)) (byteCount before + byteCount opened) =
      some ⟨1 + before.count '\n', opened ++ firstLine after, byteCount opened⟩ := by
  have here (line : Nat) : placeFrom line 0 (opened ++ after) (byteCount opened) (opened ++ after) =
      some ⟨line, opened ++ firstLine after, byteCount opened⟩ := by
    rw [← Nat.add_zero (byteCount opened), placeFrom_append inLine, Nat.zero_add, Nat.add_zero]
    cases after with
    | nil => simpa [placeFrom] using firstLine_append inLine []
    | cons c after => simp [placeFrom, firstLine_append inLine, Char.utf8Size_pos]
  obtain rfl | ends := starts
  · simpa [place?] using here 1
  · rw [place?, placeFrom_lines ends, here]

/-! ## Offsets and lines -/

/-- There is a place at every byte offset up to the end of a source, and none beyond it. The place
is in the line that holds the offset, with its line break, and the line has one more than the number
of line breaks in the bytes before the offset. So line and column tell the offset, and the line
never goes back when the offset goes on. -/
theorem place?_exact (source : String) :
    (∀ offset, place? source.toList offset = none ↔ source.utf8ByteSize < offset) ∧
    (∀ offset place, place? source.toList offset = some place →
      place.line = 1 + (source.toUTF8.data.toList.take offset).count lineFeed ∧
      ∃ before body ending after, place.Stands source.toList before body ending after ∧
        byteCount before + place.column = offset) ∧
    ∀ offset offset' place place', place? source.toList offset = some place →
      place? source.toList offset' = some place' →
      (place.line = place'.line → place.column = place'.column → offset = offset') ∧
      (offset ≤ offset' → place.line ≤ place'.line) := by
  rw [Text.bytes_toList, Text.utf8ByteSize_eq_byteCount]
  have counted (offset : Nat) (place : Place) (found : place? source.toList offset = some place) :
      place.line = 1 + ((bytes source.toList).take offset).count lineFeed := by
    obtain ⟨before, body, ending, after, stands, rfl, line_eq⟩ := exists_stands_of_place? found
    rw [stands.count_bytes, line_eq]
  refine ⟨?_, ?_, ?_⟩
  · intro offset
    rw [← Option.not_isSome_iff_eq_none, place?_isSome_iff, Nat.not_le]
  · intro offset place found
    obtain ⟨before, body, ending, after, stands, offset_eq, -⟩ := exists_stands_of_place? found
    exact ⟨counted offset place found, before, body, ending, after, stands, offset_eq⟩
  · intro offset offset' place place' found found'
    constructor
    · intro sameLine sameColumn
      obtain ⟨before, body, ending, after, stands, rfl, line_eq⟩ := exists_stands_of_place? found
      obtain ⟨before', body', ending', after', stands', rfl, line_eq'⟩ :=
        exists_stands_of_place? found'
      have same := lines_unique (stands.source_eq.symm.trans stands'.source_eq) stands.starts
        stands'.starts (by omega)
      rw [same, sameColumn]
    · intro le
      rw [counted offset place found, counted offset' place' found', Nat.add_le_add_iff_left]
      exact (List.take_prefix_take_left le).sublist.count_le lineFeed

/-- A line whose letter takes two bytes, an empty line, and one that ends with the source. -/
def threeLines : String := "é\n\nx"

theorem place?_exact_threeLines :
    place? threeLines.toList 1 = some ⟨1, ['é', '\n'], 1⟩ ∧
    place? threeLines.toList 5 = some ⟨3, ['x'], 1⟩ ∧
    3 = 1 + (threeLines.toUTF8.data.toList.take 5).count lineFeed ∧
    (∃ before body ending after,
      Place.Stands ⟨3, ['x'], 1⟩ threeLines.toList before body ending after ∧
        byteCount before + 1 = 5) ∧
    place? threeLines.toList 6 = none := by
  have inLetter : place? threeLines.toList 1 = some ⟨1, ['é', '\n'], 1⟩ := by decide +kernel
  have atEnd : place? threeLines.toList 5 = some ⟨3, ['x'], 1⟩ := by decide +kernel
  obtain ⟨outside, inside, -⟩ := place?_exact threeLines
  obtain ⟨line, stands⟩ := inside 5 _ atEnd
  exact ⟨inLetter, atEnd, line, stands, (outside 6).mpr (by decide +kernel)⟩

end Source

end PseudoLang
