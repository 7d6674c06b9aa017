import InsecureLinks.Output.Markup
import InsecureLinks.Files.Path
import InsecureLinks.Report.Basic
import InsecureLinks.Text.Blank

/-!
# Console output

What is shown for a report: its violations as a table, then the diagnostics, then the totals.
Only warnings are shown unless everything is asked for.
-/

namespace InsecureLinks

/-- A table with a title, headers and rows of cells. -/
structure Table where
  title : Text
  columns : List Text
  rows : List (List Text)
deriving DecidableEq, Repr

/-- One thing shown on the console. -/
inductive Print
  | line (t : Text)
  | table (t : Table)
deriving DecidableEq, Repr

namespace Console

/-- Why a report is not shown. -/
inductive Fault
  | number (f : Numeral.Fault)
  /-- The duration is too large for a number. -/
  | duration
deriving DecidableEq, Repr

/-- The wording of a fault. -/
def Fault.message : Fault → Text
  | .number f => f.message
  | .duration => Measure.tooLargeMessage

/-- The most characters of a line that are shown. -/
def maxLineWidth : Nat := 80

/-- The path of a file that is named relative to a root. -/
def joined (root filePath : Text) : Text := ((Path.ofText root).join filePath).text

/-- How the file of a violation is called: with its root if there are several. -/
def fileLabel (severalRoots : Bool) (v : Violation) : Text :=
  if severalRoots then joined v.root v.filePath else v.filePath

/-- The row of a violation. -/
def row (severalRoots : Bool) (v : Violation) : Except Numeral.Fault (List Text) := do
  return [Markup.escape (fileLabel severalRoots v), ← Numeral.write v.lineNumber,
    ← Numeral.write v.column, Markup.escape (v.lineText.strip.take maxLineWidth)]

/-- The table of the violations of a report. -/
def table (r : Report) : Except Numeral.Fault Table := do
  return {
    title := "http:// violations".toList
    columns := ["File".toList, "Line".toList, "Col".toList, "Text".toList]
    rows := ← r.violations.mapM (row (1 < r.roots.length)) }

/-- The line of a diagnostic. -/
def diagnosticLine (d : Diagnostic) : Except Numeral.Fault Text := do
  let color := if d.level = .warning then "yellow" else "dim"
  return Markup.tagged color d.level.name ++ ' ' :: Markup.escape (← d.place) ++ ": ".toList ++
    Markup.escape d.message

/-- The line that says how many files were scanned and how long it took. -/
def scannedLine (r : Report) : Except Fault Text := do
  let scanned ← (Numeral.write r.filesScanned).mapError .number
  let skipped ← (Numeral.write r.filesSkipped).mapError .number
  match r.duration.fixedTwo? with
  | none => throw .duration
  | some seconds =>
    return "\nScanned ".toList ++ scanned ++ " files (".toList ++ skipped ++
      " skipped) in ".toList ++ seconds ++ ['s']

/-- The line that says how many violations there are. -/
def totalLine (r : Report) : Text :=
  "Total violations: ".toList ++ Text.natural r.violationCount

/-- The diagnostics that are shown. -/
def shownDiagnostics (verbose : Bool) (r : Report) : List Diagnostic :=
  if verbose then r.diagnostics else r.diagnostics.filter fun d => d.level = .warning

/-- What is shown for the violations of a report. -/
def violationsPrint (r : Report) : Except Numeral.Fault Print :=
  if r.passed then .ok (.line "[green]No http:// violations found.[/green]".toList)
  else .table <$> table r

/-- What is shown for a report. -/
def report (verbose : Bool) (r : Report) : Except Fault (List Print) := do
  let violations ← (violationsPrint r).mapError .number
  let diagnostics ← ((shownDiagnostics verbose r).mapM diagnosticLine).mapError .number
  let scanned ← scannedLine r
  return violations :: diagnostics.map .line ++ [.line scanned, .line (totalLine r)]

end Console

end InsecureLinks
