import PseudoLang.Grammar.Evaluation
import PseudoLang.Grammar.Language
import PseudoLang.Program.OfTree
import PseudoLang.Token.Stream

/-!
The way from a source text to a program: tokens, the syntax tree of the whole source, and the
program that it stands for.
-/

namespace PseudoLang

open Grammar (Halt Parser Parse)

/-- The parser of the language over a stream of tokens. -/
def languageParser (tokens : Array Token) (file : String) : Parser :=
  ⟨tokens, file, Grammar.Language.table⟩

/-- The syntax tree of a stream of tokens. -/
def parse (tokens : Array Token) (file : String := defaultFile) : Except Halt SyntaxTree :=
  (languageParser tokens file).parseFile

/-- The program of a stream of tokens. Errors of the syntax tree belong to no place. -/
def readTokens (tokens : Array Token) (file : String := defaultFile) : Except Halt Program := do
  let tree ← parse tokens file
  (Program.ofTree tree).mapError fun cause => .error (Error.nowhere cause)

/-- The program of a source text. -/
def readSource (source : String) (file : String := defaultFile) : Except Halt Program := do
  let tokens ← (tokenize source file).mapError .error
  readTokens tokens file

end PseudoLang
