import RouteCheck.Check.Check
import RouteCheck.Check.Client
import RouteCheck.Check.Diagnostic
import RouteCheck.Check.Handler
import RouteCheck.Check.Parity
import RouteCheck.Check.Route
import RouteCheck.Check.Server
import RouteCheck.Cli.Argument
import RouteCheck.Cli.Command
import RouteCheck.Cli.Run
import RouteCheck.Cli.Setting
import RouteCheck.Config
import RouteCheck.Files.Glob
import RouteCheck.Files.Ignore
import RouteCheck.Files.Load
import RouteCheck.Files.Tree
import RouteCheck.Files.Walk
import RouteCheck.Flow.Explore
import RouteCheck.Flow.Graph
import RouteCheck.Flow.Stmt
import RouteCheck.Flow.Writes
import RouteCheck.Http.Auth
import RouteCheck.Http.Client
import RouteCheck.Http.Context
import RouteCheck.Http.Error
import RouteCheck.Http.Message
import RouteCheck.Http.Method
import RouteCheck.Http.Mux
import RouteCheck.Http.PathTree
import RouteCheck.Http.Url
import RouteCheck.Json.Reader
import RouteCheck.Json.Value
import RouteCheck.Main
import RouteCheck.Program.Declarations
import RouteCheck.Program.Program
import RouteCheck.Program.SourceFile
import RouteCheck.Proofs.Check.Aliases
import RouteCheck.Proofs.Check.Alignment
import RouteCheck.Proofs.Check.Boundary
import RouteCheck.Proofs.Check.Calls
import RouteCheck.Proofs.Check.Carried
import RouteCheck.Proofs.Check.Clean
import RouteCheck.Proofs.Check.Entries
import RouteCheck.Proofs.Check.Histories
import RouteCheck.Proofs.Check.Inventory
import RouteCheck.Proofs.Check.Keys
import RouteCheck.Proofs.Check.Lines
import RouteCheck.Proofs.Check.Messages
import RouteCheck.Proofs.Check.Miscounts
import RouteCheck.Proofs.Check.Missing
import RouteCheck.Proofs.Check.Offers
import RouteCheck.Proofs.Check.Parity
import RouteCheck.Proofs.Check.Queries
import RouteCheck.Proofs.Check.Replay
import RouteCheck.Proofs.Check.Routes
import RouteCheck.Proofs.Check.Settled
import RouteCheck.Proofs.Check.Shadowing
import RouteCheck.Proofs.Check.Shape
import RouteCheck.Proofs.Check.SourceOrder
import RouteCheck.Proofs.Check.Treatment
import RouteCheck.Proofs.Check.WrongTypes
import RouteCheck.Proofs.Flow.Bindings
import RouteCheck.Proofs.Flow.Bound
import RouteCheck.Proofs.Flow.Conditions
import RouteCheck.Proofs.Flow.Execution
import RouteCheck.Proofs.Flow.Laid
import RouteCheck.Proofs.Flow.Layout
import RouteCheck.Proofs.Flow.Pieces
import RouteCheck.Proofs.Flow.Reading
import RouteCheck.Proofs.Flow.Repeated
import RouteCheck.Proofs.Flow.Reports
import RouteCheck.Proofs.Flow.Steps
import RouteCheck.Proofs.Flow.Walk
import RouteCheck.Proofs.Flow.WellFormed
import RouteCheck.Proofs.Flow.Worklist
import RouteCheck.Proofs.Http.Bodies
import RouteCheck.Proofs.Http.Clash
import RouteCheck.Proofs.Http.Credentials
import RouteCheck.Proofs.Http.Guard
import RouteCheck.Proofs.Http.Insertion
import RouteCheck.Proofs.Http.PathTree
import RouteCheck.Proofs.Http.Refusal
import RouteCheck.Proofs.Http.Registration
import RouteCheck.Proofs.Http.Table
import RouteCheck.Proofs.Program.Located
import RouteCheck.Proofs.Program.Lookup
import RouteCheck.Proofs.Program.Sample
import RouteCheck.Proofs.Program.Scan
import RouteCheck.Proofs.Text.Base64
import RouteCheck.Proofs.Text.Lines
import RouteCheck.Proofs.Text.Literals
import RouteCheck.Proofs.Text.Order
import RouteCheck.Proofs.Text.Split
import RouteCheck.Proofs.Text.Utf8
import RouteCheck.Proofs.Tree.Apart
import RouteCheck.Proofs.Tree.ExpressionReads
import RouteCheck.Proofs.Tree.Legible
import RouteCheck.Proofs.Tree.Lexemes
import RouteCheck.Proofs.Tree.Nodes
import RouteCheck.Proofs.Tree.Origins
import RouteCheck.Proofs.Tree.Paths
import RouteCheck.Proofs.Tree.Placed
import RouteCheck.Proofs.Tree.Reads
import RouteCheck.Proofs.Tree.RuleOrigins
import RouteCheck.Proofs.Tree.RuleRuns
import RouteCheck.Proofs.Tree.Runs
import RouteCheck.Proofs.Tree.SourceOrigins
import RouteCheck.Proofs.Tree.SourceReads
import RouteCheck.Proofs.Tree.SourceRuns
import RouteCheck.Proofs.Tree.StatementReads
import RouteCheck.Proofs.Tree.Texts
import RouteCheck.Proofs.Tree.TypeExpressions
import RouteCheck.Proofs.Tree.TypeReads
import RouteCheck.Proofs.Tree.Visits
import RouteCheck.Proofs.Types.Clauses
import RouteCheck.Proofs.Types.Collect
import RouteCheck.Proofs.Types.Conversions
import RouteCheck.Proofs.Types.Dependence
import RouteCheck.Proofs.Types.Fillers
import RouteCheck.Proofs.Types.Formatted
import RouteCheck.Proofs.Types.Initializers
import RouteCheck.Proofs.Types.Joined
import RouteCheck.Proofs.Types.Leads
import RouteCheck.Proofs.Types.Lexical
import RouteCheck.Proofs.Types.Pieces
import RouteCheck.Proofs.Types.Promotion
import RouteCheck.Proofs.Types.Rendering
import RouteCheck.Proofs.Types.Resolution
import RouteCheck.Proofs.Types.Scoping
import RouteCheck.Proofs.Types.Scripts
import RouteCheck.Proofs.Types.Specifications
import RouteCheck.Proofs.Types.Spelling
import RouteCheck.Proofs.Types.Symbols
import RouteCheck.Proofs.Types.TypeNodes
import RouteCheck.Proofs.Types.Written
import RouteCheck.Text.Base64
import RouteCheck.Text.Basic
import RouteCheck.Text.Blank
import RouteCheck.Text.Hidden
import RouteCheck.Text.Integer
import RouteCheck.Text.Path
import RouteCheck.Text.Quoted
import RouteCheck.Text.Shortest
import RouteCheck.Text.Utf8
import RouteCheck.Toml.Document
import RouteCheck.Toml.Reader
import RouteCheck.Toml.Value
import RouteCheck.Tree.ExpressionGrammar
import RouteCheck.Tree.Kind
import RouteCheck.Tree.Literal
import RouteCheck.Tree.Node
import RouteCheck.Tree.Read
import RouteCheck.Tree.Reader
import RouteCheck.Tree.StatementGrammar
import RouteCheck.Tree.Token
import RouteCheck.Tree.TypeGrammar
import RouteCheck.Types.Members
import RouteCheck.Types.Scope
import RouteCheck.Types.Template
import RouteCheck.Types.Ty
import RouteCheck.Types.Typing
