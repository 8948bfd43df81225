import Emitter.FileTree
import Emitter.Main
import Emitter.Program.Encode
import Emitter.Proofs.Expression.Lowered
import Emitter.Proofs.Expression.Plain
import Emitter.Proofs.Whole.Sessions
import Emitter.Proofs.Dialects.Runs
import Emitter.Proofs.Statement.Nesting
import Emitter.Proofs.Expression.Ordered
import Emitter.Proofs.Names.Types
import Emitter.Proofs.Names.Supplied
import Emitter.Proofs.Json.Codecs
import Emitter.Proofs.Json.Expressions
import Emitter.Proofs.Brackets.Expression
import Emitter.Proofs.Brackets.Files
import Emitter.Proofs.Capture.Bare
import Emitter.Proofs.Capture.Body
import Emitter.Proofs.Json.Programs
import Emitter.Proofs.Storage.Constructors
import Emitter.Proofs.Storage.Layouts
import Emitter.Proofs.Writing.Build
import Emitter.Proofs.Printf.Arguments
import Emitter.Proofs.Expression.Signs
import Emitter.Proofs.Storage.Built
import Emitter.Proofs.Storage.Locals
import Emitter.Proofs.Whole.SpelledTypes
import Emitter.Proofs.Printf.Splitting
import Emitter.Proofs.Statement.Evaluated
import Emitter.Proofs.Initializers.Runs
import Emitter.Proofs.Expression.Sums
import Emitter.Proofs.Expression.LowBytes
import Emitter.Proofs.Types.Decay
import Emitter.Proofs.Types.Tables
import Emitter.Proofs.Layout.Sections
import Emitter.Proofs.Types.Resources
import Emitter.Proofs.Expression.CallShapes
import Emitter.Proofs.Layout.LogicalLines
import Emitter.Proofs.Paths.Nearest
import Emitter.Proofs.Paths.DefaultOutput
import Emitter.Proofs.Aggregates.Files
