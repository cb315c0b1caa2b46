import PseudoLang.Command.Directory
import PseudoLang.Command.Host
import PseudoLang.Command.Options
import PseudoLang.Command.Run
import PseudoLang.Error
import PseudoLang.FrontEnd
import PseudoLang.Grammar.Evaluation
import PseudoLang.Grammar.Filter
import PseudoLang.Grammar.Language
import PseudoLang.Grammar.Rule
import PseudoLang.Grammar.Table
import PseudoLang.Json
import PseudoLang.Main
import PseudoLang.Number.Binary64
import PseudoLang.Number.Decimal
import PseudoLang.Number.Reading
import PseudoLang.Number.Shortest
import PseudoLang.Position
import PseudoLang.Precedence.Association
import PseudoLang.Precedence.Powers
import PseudoLang.Precedence.Roles
import PseudoLang.Program
import PseudoLang.Program.Json
import PseudoLang.Program.OfTree
import PseudoLang.Report
import PseudoLang.Source
import PseudoLang.SyntaxTree
import PseudoLang.SyntaxTree.Json
import PseudoLang.Text.Blank
import PseudoLang.Text.Bytes
import PseudoLang.Text.Digit
import PseudoLang.Text.GraphemeExtend
import PseudoLang.Text.Quoted
import PseudoLang.Text.Unprintable
import PseudoLang.Token
import PseudoLang.Token.Layout
import PseudoLang.Token.Lexeme
import PseudoLang.Token.Stream
import PseudoLang.Proofs.Precedence.Association
import PseudoLang.Proofs.Precedence.Resolution
import PseudoLang.Proofs.Grammar.Derivation
import PseudoLang.Proofs.Grammar.Depth
import PseudoLang.Proofs.Grammar.Shape
import PseudoLang.Proofs.Language.Shape
import PseudoLang.Proofs.Program.OfTree
import PseudoLang.Proofs.Language.Parse
import PseudoLang.Proofs.Token.Indentation
import PseudoLang.Proofs.Token.Lexing
import PseudoLang.Proofs.Grammar.Frontier
import PseudoLang.Proofs.Language.Lossless
import PseudoLang.Proofs.Grammar.Acceptance
import PseudoLang.Proofs.Grammar.Rounds
import PseudoLang.Proofs.Language.Rendering
import PseudoLang.Proofs.Language.Rendering.Expressions
import PseudoLang.Proofs.Precedence.Likeness
import PseudoLang.Proofs.Language.Rendering.Sequences
import PseudoLang.Proofs.Language.Rendering.Declarations
import PseudoLang.Proofs.Language.Rendering.Actions
import PseudoLang.Proofs.Language.Rendering.Statements
import PseudoLang.Proofs.Language.Rendering.Programs
import PseudoLang.Proofs.Token.Arrangement
import PseudoLang.Proofs.Grammar.Yield
import PseudoLang.Proofs.Language.Spelling
import PseudoLang.Proofs.Language.Rereading
import PseudoLang.Proofs.Language.Soundness
import PseudoLang.Proofs.Language.Invariants
import PseudoLang.Proofs.Grammar.Balance
import PseudoLang.Proofs.Grammar.Simulation
import PseudoLang.Proofs.Grammar.Succession
import PseudoLang.Proofs.Token.Concatenation
import PseudoLang.Proofs.Language.Items
import PseudoLang.Proofs.Language.Concatenation
import PseudoLang.Proofs.Grammar.Termination
import PseudoLang.Proofs.Grammar.Halting
import PseudoLang.Proofs.Grammar.Validity
import PseudoLang.Proofs.Precedence.Totality
import PseudoLang.Proofs.Language.Safety
import PseudoLang.Proofs.Grammar.Locality
import PseudoLang.Proofs.Grammar.Inheritance
import PseudoLang.Proofs.Grammar.Consumption
import PseudoLang.Proofs.Grammar.Restoration
import PseudoLang.Proofs.Token.Truncation
import PseudoLang.Proofs.Language.Positions
import PseudoLang.Proofs.Command.Files
import PseudoLang.Proofs.Command.Run
import PseudoLang.Proofs.Precedence.Words
import PseudoLang.Proofs.Json.Reading
import PseudoLang.Proofs.Precedence.Nesting
import PseudoLang.Proofs.Json.Layout
import PseudoLang.Proofs.Json.Scalars
import PseudoLang.Proofs.Json.RoundTrip
import PseudoLang.Proofs.SyntaxTree.Json
import PseudoLang.Proofs.Token.Longest
import PseudoLang.Proofs.Token.Partition
import PseudoLang.Proofs.Token.Literal
import PseudoLang.Proofs.Token.Writing
import PseudoLang.Proofs.Token.BlankLines
import PseudoLang.Proofs.Token.Respacing
import PseudoLang.Proofs.Number.Reading
import PseudoLang.Proofs.Token.Number
import PseudoLang.Proofs.Language.Numbers
import PseudoLang.Proofs.Language.Numbers.Statements
import PseudoLang.Proofs.Language.Numbers.Programs
import PseudoLang.Proofs.Number.Rounding
import PseudoLang.Proofs.Json.Numbers
import PseudoLang.Proofs.Language.Numbers.Json
import PseudoLang.Proofs.Language.Numbers.Range
import PseudoLang.Proofs.Source.Lines
import PseudoLang.Proofs.Report
import PseudoLang.Proofs.SyntaxTree.Traversal
import PseudoLang.Proofs.Grammar.Diagnosis
