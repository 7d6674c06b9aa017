import InsecureLinks.Main
import InsecureLinks.Proofs.CommandLine.Command
import InsecureLinks.Proofs.CommandLine.Recheck
import InsecureLinks.Proofs.CommandLine.Status
import InsecureLinks.Proofs.Digest.Sha256
import InsecureLinks.Proofs.Document.Json
import InsecureLinks.Proofs.Document.JsonScalar
import InsecureLinks.Proofs.Files.FileTree
import InsecureLinks.Proofs.Files.Folders
import InsecureLinks.Proofs.Files.Growth
import InsecureLinks.Proofs.Files.Lookup
import InsecureLinks.Proofs.Files.Path
import InsecureLinks.Proofs.Files.Writing
import InsecureLinks.Proofs.Glob.Grammar
import InsecureLinks.Proofs.Glob.Language
import InsecureLinks.Proofs.Glob.Literal
import InsecureLinks.Proofs.Glob.Subtree
import InsecureLinks.Proofs.Grouping
import InsecureLinks.Proofs.Number.Numeral
import InsecureLinks.Proofs.Number.Rounding
import InsecureLinks.Proofs.Number.Shortest
import InsecureLinks.Proofs.Number.Written
import InsecureLinks.Proofs.Outcome
import InsecureLinks.Proofs.Output.Checkstyle
import InsecureLinks.Proofs.Output.Console
import InsecureLinks.Proofs.Output.ReportFiles
import InsecureLinks.Proofs.Output.Totals
import InsecureLinks.Proofs.Output.Xml
import InsecureLinks.Proofs.Replace.DryRun
import InsecureLinks.Proofs.Replace.File
import InsecureLinks.Proofs.Replace.Partly
import InsecureLinks.Proofs.Replace.Places
import InsecureLinks.Proofs.Replace.Refusal
import InsecureLinks.Proofs.Replace.Report
import InsecureLinks.Proofs.Replace.Reported
import InsecureLinks.Proofs.Replace.Rescan
import InsecureLinks.Proofs.Replace.Stopped
import InsecureLinks.Proofs.Replace.Visits
import InsecureLinks.Proofs.Report.Draft
import InsecureLinks.Proofs.Scan.AddedLine
import InsecureLinks.Proofs.Scan.AfterWriting
import InsecureLinks.Proofs.Scan.Alias
import InsecureLinks.Proofs.Scan.Collecting
import InsecureLinks.Proofs.Scan.Completion
import InsecureLinks.Proofs.Scan.Deadline
import InsecureLinks.Proofs.Scan.Entering
import InsecureLinks.Proofs.Scan.Excluded
import InsecureLinks.Proofs.Scan.Fault
import InsecureLinks.Proofs.Scan.Gather
import InsecureLinks.Proofs.Scan.Growth
import InsecureLinks.Proofs.Scan.Links
import InsecureLinks.Proofs.Scan.Magnitude
import InsecureLinks.Proofs.Scan.Naming
import InsecureLinks.Proofs.Scan.PassedOver
import InsecureLinks.Proofs.Scan.Place
import InsecureLinks.Proofs.Scan.Position
import InsecureLinks.Proofs.Scan.Reading
import InsecureLinks.Proofs.Scan.Report
import InsecureLinks.Proofs.Scan.Selection
import InsecureLinks.Proofs.Scan.SourceText
import InsecureLinks.Proofs.Scan.Visiting
import InsecureLinks.Proofs.Settings.Loading
import InsecureLinks.Proofs.Store.CachedScan
import InsecureLinks.Proofs.Store.Column
import InsecureLinks.Proofs.Store.Connection
import InsecureLinks.Proofs.Store.Diagnostics
import InsecureLinks.Proofs.Store.Fingerprint
import InsecureLinks.Proofs.Store.Growth
import InsecureLinks.Proofs.Store.History
import InsecureLinks.Proofs.Store.Interleaving
import InsecureLinks.Proofs.Store.Key
import InsecureLinks.Proofs.Store.Layout
import InsecureLinks.Proofs.Store.ReportCache
import InsecureLinks.Proofs.Store.Transaction
import InsecureLinks.Proofs.Text.Blank
import InsecureLinks.Proofs.Text.CodePoint
import InsecureLinks.Proofs.Text.Line
import InsecureLinks.Proofs.Text.Occurrence
import InsecureLinks.Proofs.Text.Piece
import InsecureLinks.Proofs.Text.Position
import InsecureLinks.Proofs.Text.Recut
import InsecureLinks.Proofs.Text.Search
import InsecureLinks.Proofs.Text.Utf8
import InsecureLinks.Proofs.Text.WideLine
import InsecureLinks.Proofs.Whitelist.Appending
import InsecureLinks.Proofs.Whitelist.Index
import InsecureLinks.Proofs.Whitelist.Lines
import InsecureLinks.Proofs.Whitelist.Listing
import InsecureLinks.Proofs.Whitelist.Reading
import InsecureLinks.Proofs.Whitelist.Spelling
