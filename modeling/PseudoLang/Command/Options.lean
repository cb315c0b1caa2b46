/-!
The arguments of the command line.
-/

namespace PseudoLang.Command

/-- What the command is asked to do. -/
structure Options where
  /-- The path of the source. -/
  file : String
  /-- List the tokens and do no more. -/
  tokens : Bool := false
  /-- Tell how long each step takes. -/
  timings : Bool := false
  /-- Write JSON on a single line. -/
  compact : Bool := false
  /-- Leave typographic quotes alone. -/
  keepQuotes : Bool := false
  /-- Where to write the syntax tree. -/
  treePath : Option String := none
  /-- Where to write the program, beside printing it. -/
  programPath : Option String := none
  deriving DecidableEq, Repr

namespace Options

/-- How the command is used. -/
def usage : String :=
  "usage: [--tokens] [--timings] [--compact] [--no-normalize-quotes] [--raw PATH] [--ast PATH] FILE"

/-- The options read so far, before the path of the source is known. -/
structure Draft where
  options : Options := { file := "" }
  file : Option String := none

/-- Takes one path for the source. -/
def Draft.withFile (draft : Draft) (path : String) : Except String Draft :=
  match draft.file with
  | none => .ok { draft with file := some path }
  | some _ => .error ("unexpected argument '" ++ path ++ "'")

/-- An option with a value, which may follow an equals sign. -/
def splitValue (argument : String) : String × Option String :=
  match argument.splitOn "=" with
  | name :: value :: more => (name, some ("=".intercalate (value :: more)))
  | _ => (argument, none)

/-- Reads arguments from left to right. Options and the path may come in any order; after `--`
there are no more options. -/
def readArguments (draft : Draft) : List String → Except String Draft
  | [] => .ok draft
  | "--" :: paths => paths.foldlM Draft.withFile draft
  | argument :: rest =>
    if argument.startsWith "--" then
      match splitValue argument with
      | ("--tokens", none) =>
        readArguments { draft with options := { draft.options with tokens := true } } rest
      | ("--timings", none) =>
        readArguments { draft with options := { draft.options with timings := true } } rest
      | ("--compact", none) =>
        readArguments { draft with options := { draft.options with compact := true } } rest
      | ("--no-normalize-quotes", none) =>
        readArguments { draft with options := { draft.options with keepQuotes := true } } rest
      | ("--raw", some path) =>
        readArguments { draft with options := { draft.options with treePath := some path } } rest
      | ("--ast", some path) =>
        readArguments { draft with options := { draft.options with programPath := some path } } rest
      | ("--raw", none) =>
        match rest with
        | path :: rest =>
          readArguments { draft with options := { draft.options with treePath := some path } } rest
        | [] => .error "a value is required for '--raw'"
      | ("--ast", none) =>
        match rest with
        | path :: rest =>
          readArguments { draft with options := { draft.options with programPath := some path } }
            rest
        | [] => .error "a value is required for '--ast'"
      | _ => .error ("unexpected argument '" ++ argument ++ "'")
    else do readArguments (← draft.withFile argument) rest

/-- The options that a list of arguments stands for. -/
def ofArguments (arguments : List String) : Except String Options := do
  let draft ← readArguments {} arguments
  match draft.file with
  | some path => return { draft.options with file := path }
  | none => .error "the path of a source is required"

end Options

end PseudoLang.Command
