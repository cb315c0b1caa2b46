/-!
Places in a source text: byte offsets together with the name of the file.
-/

namespace PseudoLang

/-- A byte offset in a named file. Offsets are words of 32 bits. -/
structure Position where
  offset : UInt32
  file : String
  deriving DecidableEq, Repr

namespace Position

/-- The position of an error that no place in a source text belongs to. -/
def nowhere : Position := ⟨0, "<null>"⟩

end Position

/-- The half-open stretch of source that a token covers. -/
structure Span where
  start : Position
  stop : Position
  deriving DecidableEq, Repr

/-- The file name of a source that was not read from a file. -/
def defaultFile : String := "shell"

end PseudoLang
