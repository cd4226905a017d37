import LanguageSpec.CommandLine
import LanguageSpec.Main
import LanguageSpec.Proofs.Fragment.Path
import LanguageSpec.Proofs.Fragment.Language
import LanguageSpec.Proofs.Fragment.Operations
import LanguageSpec.Proofs.Fragment.Program
import LanguageSpec.Proofs.Except
import LanguageSpec.Proofs.Regex.Language
import LanguageSpec.Proofs.Regex.Grammar
import LanguageSpec.Proofs.Regex.Moves
import LanguageSpec.Proofs.Regex.Reading
import LanguageSpec.Proofs.Regex.Replay
import LanguageSpec.Proofs.Regex.Meaning
import LanguageSpec.Proofs.Regex.Acceptance
import LanguageSpec.Proofs.Regex.Finality
import LanguageSpec.Proofs.Grammar.Derivation
import LanguageSpec.Proofs.Grammar.First
import LanguageSpec.Proofs.Grammar.Follow
import LanguageSpec.Proofs.Grammar.Lookahead
import LanguageSpec.Proofs.Grammar.Table
import LanguageSpec.Proofs.Grammar.Leftmost
import LanguageSpec.Proofs.Grammar.Expansion
import LanguageSpec.Proofs.Document.Grammar
import LanguageSpec.Proofs.Document.Outline
import LanguageSpec.Proofs.Document.Coverage
import LanguageSpec.Proofs.Document.Lexer
import LanguageSpec.Proofs.Scanner
import LanguageSpec.Proofs.Coverage
import LanguageSpec.Proofs.Regex.Expression
import LanguageSpec.Proofs.Regex.Rendering
import LanguageSpec.Proofs.Document.Printing
import LanguageSpec.Proofs.Grammar.Inclusion
import LanguageSpec.Proofs.Regex.Errors
import LanguageSpec.Proofs.Regex.Order
import LanguageSpec.Proofs.Regex.Inlining
import LanguageSpec.Proofs.Regex.Places
import LanguageSpec.Proofs.Document.Places
import LanguageSpec.Proofs.Position
import LanguageSpec.Proofs.Registry
import LanguageSpec.Proofs.Frontend
import LanguageSpec.Proofs.Grammar.Cells
import LanguageSpec.Proofs.Grammar.Conflict
import LanguageSpec.Proofs.Grammar.Closure
import LanguageSpec.Proofs.Grammar.Indexing
import LanguageSpec.Proofs.Regex.Purity
import LanguageSpec.Proofs.Regex.Brackets
import LanguageSpec.Proofs.Regex.Modes
import LanguageSpec.Proofs.Regex.Coverage
import LanguageSpec.Proofs.Document.Expectation
import LanguageSpec.Proofs.Fragment.Invariant
import LanguageSpec.Proofs.Fragment.Shape
import LanguageSpec.Proofs.Regex.Shape
import LanguageSpec.Proofs.Fragment.Reachability
import LanguageSpec.Proofs.Regex.Reachability
import LanguageSpec.Proofs.Fragment.Listing
import LanguageSpec.Proofs.Grammar.Range
import LanguageSpec.Proofs.Grammar.Listing
import LanguageSpec.Proofs.Frontend.Listing
import LanguageSpec.Proofs.Grammar.Checked
import LanguageSpec.Proofs.Grammar.Grid
import LanguageSpec.Proofs.Regex.Descent
import LanguageSpec.Proofs.Regex.Operands
import LanguageSpec.Proofs.Regex.Simulation
