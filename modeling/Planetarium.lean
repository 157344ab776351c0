import Planetarium.Text.Cursor
import Planetarium.Text.Quoted
import Planetarium.Text.Uppercase
import Planetarium.Text.Blank
import Planetarium.Text.Position
import Planetarium.Text.LineEnds
import Planetarium.Text.Path
import Planetarium.Text.Similarity
import Planetarium.Text.Utf8
import Planetarium.Decimal.Notation
import Planetarium.Decimal.Numeral
import Planetarium.Parsing.Token
import Planetarium.Parsing.Report
import Planetarium.Table
import Planetarium.Expr.Printer
import Planetarium.Grammar.Expression
import Planetarium.Grammar.Command
import Planetarium.Expr.Eval
import Planetarium.Document.Pass
import Planetarium.Scene.Texture
import Planetarium.Orbit.Position
import Planetarium.Data.Tree
import Planetarium.Data.Json
import Planetarium.Data.Yaml
import Planetarium.Document.File
import Planetarium.Scene.Report
import Planetarium.Decimal.Word
import Planetarium.CommandLine
import Planetarium.Main
import Planetarium.Proofs.Text.Position
import Planetarium.Proofs.Diagnostic.Oversight
import Planetarium.Proofs.Document.Printer
import Planetarium.Proofs.Scene.Meaning
import Planetarium.Proofs.Document.Depth
import Planetarium.Proofs.Scene.Diagnosed
import Planetarium.Proofs.Parsing.Coupling
import Planetarium.Proofs.Grammar.Coupling
import Planetarium.Proofs.Document.LineEnds
import Planetarium.Proofs.Expr.RoundTrip
import Planetarium.Proofs.Parsing.Number
import Planetarium.Proofs.Grammar.OneLine
import Planetarium.Proofs.CommandLine.Eval
import Planetarium.Proofs.Document.Parsed
import Planetarium.Proofs.Document.Opening
import Planetarium.Proofs.Expr.Compose
import Planetarium.Proofs.Expr.FirstError
import Planetarium.Proofs.Document.Substitution
import Planetarium.Proofs.Document.Report
import Planetarium.Proofs.Scene.Textures
import Planetarium.Proofs.Orbit.Places
import Planetarium.Proofs.Document.Blanks
import Planetarium.Proofs.Grammar.Progress
import Planetarium.Proofs.Orbit.ClosedForm
import Planetarium.Proofs.CommandLine.Inspect
import Planetarium.Proofs.Data.Lossless
import Planetarium.Proofs.Diagnostic.Options
