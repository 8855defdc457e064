import ImportCycles.Main
import ImportCycles.Proofs.Text.Numeral
import ImportCycles.Proofs.Text.Rows
import ImportCycles.Proofs.Text.Utf8
import ImportCycles.Proofs.Json.Tokens
import ImportCycles.Proofs.Json.Reader
import ImportCycles.Proofs.Statement.Language
import ImportCycles.Proofs.Statement.Specifier
import ImportCycles.Proofs.Statement.LineBreaks
import ImportCycles.Proofs.Statement.Locality
import ImportCycles.Proofs.Reference.Printed
import ImportCycles.Proofs.Reference.Spans
import ImportCycles.Proofs.Reference.Literal
import ImportCycles.Proofs.Reference.Seam
import ImportCycles.Proofs.Reference.Kinds
import ImportCycles.Proofs.Path.NormalForm
import ImportCycles.Proofs.Path.Order
import ImportCycles.Proofs.FileSystem.Tree
import ImportCycles.Proofs.FileSystem.Placed
import ImportCycles.Proofs.FileSystem.Spelling
import ImportCycles.Proofs.FileSystem.Form
import ImportCycles.Proofs.FileSystem.Lexical
import ImportCycles.Proofs.FileSystem.Links
import ImportCycles.Proofs.FileSystem.Reordered
import ImportCycles.Proofs.Resolution.Base
import ImportCycles.Proofs.Resolution.Targets
import ImportCycles.Proofs.Resolution.Outcome
import ImportCycles.Proofs.Alias.Longest
import ImportCycles.Proofs.Alias.Below
import ImportCycles.Proofs.Extension.Clean
import ImportCycles.Proofs.Settings.Aliases
import ImportCycles.Proofs.Settings.Layers
import ImportCycles.Proofs.Settings.Layered
import ImportCycles.Proofs.Scan.Sources
import ImportCycles.Proofs.Scan.Agreement
import ImportCycles.Proofs.Scan.Content
import ImportCycles.Proofs.Scan.Exact
import ImportCycles.Proofs.Scan.Ignored
import ImportCycles.Proofs.Graph.Built
import ImportCycles.Proofs.Graph.Walk
import ImportCycles.Proofs.Graph.Imports
import ImportCycles.Proofs.Graph.OfImports
import ImportCycles.Proofs.Graph.Store
import ImportCycles.Proofs.Search.Step
import ImportCycles.Proofs.Search.Halting
import ImportCycles.Proofs.Search.Elementary
import ImportCycles.Proofs.Search.Feedback
import ImportCycles.Proofs.Search.Recursion
import ImportCycles.Proofs.Search.Distinct
import ImportCycles.Proofs.Search.Roots
import ImportCycles.Proofs.Search.Acts
import ImportCycles.Proofs.Search.Tables
import ImportCycles.Proofs.Search.Loop
import ImportCycles.Proofs.Report.Compact
import ImportCycles.Proofs.Report.Label
import ImportCycles.Proofs.Report.Drawing
import ImportCycles.Proofs.Report.Naming
import ImportCycles.Proofs.Report.RootLabel
import ImportCycles.Proofs.Survey.Targets
import ImportCycles.Proofs.Survey.Counts
import ImportCycles.Proofs.Survey.Links
import ImportCycles.Proofs.Survey.Compact
import ImportCycles.Proofs.Survey.Content
import ImportCycles.Proofs.Run.Verdict
