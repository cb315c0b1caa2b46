import PseudoLang.Command.Host
import PseudoLang.Command.Options
import PseudoLang.FrontEnd
import PseudoLang.Program.Json
import PseudoLang.Report
import PseudoLang.Source
import PseudoLang.SyntaxTree.Json

/-!
The command line: reads a source and prints its program as JSON, or the tokens of the source. The
syntax tree and the program can be written to files on the way. The first failure ends the run with
code 1; nothing is printed then but what the failure is.
-/

namespace PseudoLang.Command

open Grammar (Halt)

/-! ## Times -/

/-- A fraction of `10 ^ places`, without the zeros at its end. -/
def fraction (places part : Nat) : String :=
  let cs := Nat.toDigits 10 part
  let padded := List.replicate (places - cs.length) '0' ++ cs
  let shown := (padded.reverse.dropWhile (· == '0')).reverse
  if shown.isEmpty then "" else "." ++ String.ofList shown

/-- A length of time in the largest unit that it reaches. -/
def durationText (nanoseconds : Nat) : String :=
  let within (places : Nat) (unit : String) : String :=
    let scale := Nat.pow 10 places
    toString (nanoseconds / scale) ++ fraction places (nanoseconds % scale) ++ unit
  if 1000000000 ≤ nanoseconds then within 9 "s"
  else if 1000000 ≤ nanoseconds then within 6 "ms"
  else if 1000 ≤ nanoseconds then within 3 "µs"
  else within 0 "ns"

/-! ## Failures -/

/-- The name that a source is known by: the last name of its path, or the path if it ends in
none. -/
def shownName (path : String) : String :=
  let names := (path.splitOn "/").filter fun name => name ≠ "" ∧ name ≠ "."
  match names.getLast? with
  | some name => if name = ".." then path else name
  | none => path

/-- A run that ends with a failure, after the notes taken before. -/
def Outcome.failure (notes complaint : String) : Outcome := ⟨1, "", notes ++ complaint⟩

def unreadable (path : String) (fault : Fault) : String :=
  "Failed to read " ++ path ++ ": " ++ fault.message ++ "\n"

def unwritable (path : String) (fault : Fault) : String :=
  "Failed to write " ++ path ++ ": " ++ fault.message ++ "\n"

/-- How the end of a parse without a result is shown. -/
def haltReport (halt : Halt) (source file : String) : String :=
  match halt with
  | .error error => Report.render error source file
  | .endless => "Error: the grammar repeats without end\n"

/-! ## The run -/

/-- The listing of tokens, one to a line. -/
def listing (tokens : Array Token) : String :=
  String.join (tokens.toList.map fun token => token.listing ++ "\n")

section

variable {m : Type → Type} [Monad m] (host : Host m) (options : Options)

/-- A note of the time since `start`, if times are asked for. -/
def note (label : String) (start : Nat) : m String := do
  if options.timings then
    let now ← host.clock
    return label ++ " " ++ durationText (now - start) ++ "\n"
  else return ""

/-- Reads the source. -/
def readFile : m (Except Fault String) := do
  match ← host.read options.file with
  | .error fault => return .error fault
  | .ok bytes =>
    match String.fromUTF8? bytes with
    | some source =>
      return .ok (if options.keepQuotes then source else Source.straightenQuotes source)
    | none => return .error .notText

/-- Writes JSON to a path, if there is one; the result is what went wrong. -/
def writeFile (path : Option String) (json : Json) : m (Option String) := do
  match path with
  | none => return none
  | some path =>
    match ← host.write path (json.render options.compact) with
    | .ok () => return none
    | .error fault => return some (unwritable path fault)

/-- The run from the syntax tree on. -/
def runTree (source : String) (start : Nat) (notes : String) (tree : SyntaxTree) :
    m Outcome := do
  if let some complaint ← writeFile host options options.treePath tree.toJson then
    return .failure notes complaint
  let treeStart ← host.clock
  match Program.ofTree tree with
  | .error cause =>
    return .failure notes (Report.render (.nowhere cause) source (shownName options.file))
  | .ok program =>
    let lowered ← note host options "Lowered in" treeStart
    let total ← note host options "Total time:" start
    let notes := notes ++ lowered ++ total
    if let some complaint ← writeFile host options options.programPath program.toJson then
      return .failure notes complaint
    return ⟨0, program.toJson.render options.compact ++ "\n", notes⟩

/-- The run from the source text on. -/
def runSource (source : String) : m Outcome := do
  let file := shownName options.file
  let start ← host.clock
  match tokenize source file with
  | .error error => return .failure "" (Report.render error source file)
  | .ok tokens =>
    let notes ← note host options "Tokenized in" start
    if options.tokens then return ⟨0, listing tokens, notes⟩
    let parseStart ← host.clock
    match parse tokens file with
    | .error halt => return .failure notes (haltReport halt source file)
    | .ok tree =>
      let parsed ← note host options "Parsed in" parseStart
      runTree host options source start (notes ++ parsed) tree

/-- Runs the command. -/
def run : m Outcome := do
  match ← readFile host options with
  | .error fault => return .failure "" (unreadable options.file fault)
  | .ok source => runSource host options source

end

end PseudoLang.Command
