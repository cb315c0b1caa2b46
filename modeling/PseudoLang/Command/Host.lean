/-!
What the command line needs of the world around it: files, and a clock.
-/

namespace PseudoLang.Command

/-- Why a file cannot be read or written. -/
inductive Fault
  | notFound
  | notDirectory
  | isDirectory
  | permissionDenied
  /-- The content is not a text. -/
  | notText
  | other (number : Nat) (text : String)
  deriving DecidableEq, Repr

namespace Fault

/-- A fault of the system, with its number. -/
def numbered (text : String) (number : Nat) : String :=
  text ++ " (os error " ++ toString number ++ ")"

def message : Fault → String
  | notFound => numbered "No such file or directory" 2
  | notDirectory => numbered "Not a directory" 20
  | isDirectory => numbered "Is a directory" 21
  | permissionDenied => numbered "Permission denied" 13
  | notText => "stream did not contain valid UTF-8"
  | other number text => numbered text number

end Fault

/-- Files and a clock that counts nanoseconds, as effects in `m`. -/
structure Host (m : Type → Type) where
  read : String → m (Except Fault ByteArray)
  write : String → String → m (Except Fault Unit)
  clock : m Nat

/-- What a run of the command leaves behind, besides the files. -/
structure Outcome where
  code : Nat
  output : String
  notes : String
  deriving DecidableEq, Repr

end PseudoLang.Command
