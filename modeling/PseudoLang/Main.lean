import PseudoLang.Command.Run

/-!
The command line as a program: the files and the clock of the system it runs on.
-/

namespace PseudoLang.Command

/-- The fault of a number, which some calls give with a sign. -/
def Fault.ofNumber (number : UInt32) (text : String) : Fault :=
  match number.toInt32.toInt.natAbs with
  | 2 => .notFound
  | 13 => .permissionDenied
  | 20 => .notDirectory
  | 21 => .isDirectory
  | number => .other number text.capitalize

/-- The fault that a failure of the system stands for. -/
def Fault.ofFailure : IO.Error → Fault
  | .noFileOrDirectory _ number text | .permissionDenied _ number text
  | .inappropriateType _ number text | .alreadyExists _ number text
  | .invalidArgument _ number text | .resourceExhausted _ number text
  | .noSuchThing _ number text | .interrupted _ number text
  | .otherError number text | .resourceBusy number text
  | .resourceVanished number text | .unsupportedOperation number text
  | .hardwareFault number text | .unsatisfiedConstraints number text
  | .illegalOperation number text | .protocolError number text
  | .timeExpired number text => .ofNumber number text
  | failure => .other 0 (toString failure)

/-- The system that the program runs on. -/
def systemHost : Host IO where
  read path := do
    try return .ok (← IO.FS.readBinFile path)
    catch failure => return .error (.ofFailure failure)
  write path content := do
    try
      IO.FS.writeFile path content
      return .ok ()
    catch failure => return .error (.ofFailure failure)
  clock := IO.monoNanosNow

end PseudoLang.Command

/-- Runs the command with the given arguments. -/
def main (arguments : List String) : IO UInt32 := do
  match PseudoLang.Command.Options.ofArguments arguments with
  | .error complaint =>
    IO.eprintln ("error: " ++ complaint ++ "\n\n" ++ PseudoLang.Command.Options.usage)
    return 2
  | .ok options =>
    let outcome ← PseudoLang.Command.run PseudoLang.Command.systemHost options
    IO.eprint outcome.notes
    IO.print outcome.output
    return outcome.code.toUInt32
