import PseudoLang.Error
import PseudoLang.Source
import PseudoLang.Text.Blank

/-!
How an error is shown to the author of a source: its name and hint, the file, and the line with a
mark under the place.

```text
Error: SyntaxError (expected 'endif' closing 'if')
-> sample.txt
   |
20 |   output x
   | ---------^
```
-/

namespace PseudoLang.Report

open Text (trimEnd)

/-- The number of blanks that a line starts with. -/
def indentation (line : List Char) : Nat :=
  (line.takeWhile fun c => c == ' ' || c == '\t').length

/-- A bar at the end of a margin of the given width. -/
def margin (width : Nat) : String := String.ofList (List.replicate (width - 1) ' ') ++ "|"

/-- The caret under the place, after dashes that start below the first character. -/
def caret (place : Source.Place) : String :=
  String.ofList (List.replicate (place.column - indentation place.text) '-') ++ "^"

/-- The line of a place, without the white space around it. -/
def shownLine (place : Source.Place) : String :=
  String.ofList (trimEnd (place.text.drop (indentation place.text)))

/-- The name of an error, with its hint if there is one. -/
def title (error : Error) : String :=
  match error.tip with
  | some tip => "Error: " ++ error.name ++ " (" ++ tip ++ ")"
  | none => "Error: " ++ error.name

/-- The lines below the file's name. An error beyond the end of the source is shown by its full
message. -/
def excerpt (error : Error) (source : String) : List String :=
  match Source.place? source.toList error.position.offset.toNat with
  | none => ["   " ++ error.message]
  | some place =>
    let number := toString place.line
    let width := number.length + 2
    [margin width, number ++ " | " ++ shownLine place, margin width ++ " " ++ caret place]

/-- The report of an error in a source that is known under the name `file`. -/
def render (error : Error) (source : String) (file : String) : String :=
  String.join ((title error :: ("-> " ++ file) :: excerpt error source).map (· ++ "\n"))

end PseudoLang.Report
