import LintLocator.Path.Reader
import LintLocator.Path.Lookup
import LintLocator.Document.Stream
import LintLocator.Document.Locate
import LintLocator.Diagnostic
import LintLocator.Lint.Arguments
import LintLocator.Lint.Report
import LintLocator.Lint.Decoding
import LintLocator.Glob.Expansion
import LintLocator.Yaml.Classic.Node
import LintLocator.Toml.Reader
import LintLocator.Settings.Load
import LintLocator.Run
import LintLocator.CommandLine
import LintLocator.Main
import LintLocator.Proofs.Text.Padding
import LintLocator.Proofs.Path.Grammar
import LintLocator.Proofs.Text.Decimal
import LintLocator.Proofs.Path.WrittenForm
import LintLocator.Proofs.Path.Spelling
import LintLocator.Proofs.Path.Shape
import LintLocator.Proofs.Path.Nesting
import LintLocator.Proofs.Path.Composition
import LintLocator.Proofs.Document.Denotation
import LintLocator.Proofs.Document.Settling
import LintLocator.Proofs.Document.Building
import LintLocator.Proofs.Yaml.JsonText
import LintLocator.Proofs.Document.JsonEvents
import LintLocator.Proofs.Document.JsonDocument
import LintLocator.Proofs.Yaml.Places
import LintLocator.Proofs.Yaml.ReaderPlaces
import LintLocator.Proofs.Yaml.TokenOrder
import LintLocator.Proofs.Yaml.LayoutOrder
import LintLocator.Proofs.Yaml.LexerOrder
import LintLocator.Proofs.Yaml.GrammarSteps
import LintLocator.Proofs.Document.Streaming
import LintLocator.Proofs.Document.OutlineOrder
import LintLocator.Proofs.Document.DashSearch
import LintLocator.Proofs.Document.SequencePositions
import LintLocator.Proofs.Document.Delivery
import LintLocator.Proofs.Run.Account
import LintLocator.Proofs.Run.Reference
import LintLocator.Proofs.Run.Endings
import LintLocator.Proofs.Run.Hearing
import LintLocator.Proofs.Run.ExitStatus
import LintLocator.Proofs.Document.Wording
import LintLocator.Proofs.Document.EmptyDocuments
import LintLocator.Proofs.Run.DiagnosticLines
import LintLocator.Proofs.Text.Encoding
import LintLocator.Proofs.Json.Tokens
import LintLocator.Proofs.Json.Values
import LintLocator.Proofs.Json.Fields
import LintLocator.Proofs.Lint.Output
import LintLocator.Proofs.Run.StoppingReports
import LintLocator.Proofs.Path.Conditions
import LintLocator.Proofs.Path.Scanning
import LintLocator.Proofs.Path.Rules
import LintLocator.Proofs.Path.Clauses
import LintLocator.Proofs.Path.Literals
import LintLocator.Proofs.Text.Slices
import LintLocator.Proofs.Path.Bytewise
import LintLocator.Proofs.Path.Faults
import LintLocator.Proofs.Document.Dashes
import LintLocator.Proofs.Document.Bounds
import LintLocator.Proofs.Document.BackwardSearch
import LintLocator.Proofs.Document.NearestDash
import LintLocator.Proofs.Path.Relabelling
import LintLocator.Proofs.Path.Chains
import LintLocator.Proofs.Run.Templates
import LintLocator.Proofs.Run.PercentSigns
import LintLocator.Proofs.FileTree.Paths
import LintLocator.Proofs.Lint.CommandLines
import LintLocator.Proofs.Settings.Formats
import LintLocator.Proofs.FileTree.Steps
import LintLocator.Proofs.Glob.Names
import LintLocator.Proofs.Glob.Escaping
import LintLocator.Proofs.FileTree.Routes
import LintLocator.Proofs.Glob.Ways
import LintLocator.Proofs.Glob.WayOrder
import LintLocator.Proofs.Glob.NameOrder
import LintLocator.Proofs.Glob.Sorting
import LintLocator.Proofs.Glob.Location
