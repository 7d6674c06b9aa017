import InsecureLinks.Grouping
import InsecureLinks.Number.Measure
import InsecureLinks.Report.Diagnostic
import InsecureLinks.Report.Violation

/-!
# Reports

The outcome of a scan.  It passes when it holds no violation.
-/

namespace InsecureLinks

/-- The violations and diagnostics of a scan, with the number of files it went through, the roots
it began at, how long it took and when it ended. -/
structure Report where
  violations : List Violation
  filesScanned : Int
  filesSkipped : Int
  diagnostics : List Diagnostic
  roots : List Text
  duration : Measure
  timestamp : Measure
deriving DecidableEq, Repr

namespace Report

/-- Whether the report holds no violation. -/
def passed (r : Report) : Bool := r.violations.isEmpty

/-- How many violations the report holds. -/
def violationCount (r : Report) : Nat := r.violations.length

/-- The violations of each file, the files in the order in which they first appear. -/
def byFile (r : Report) : Groups (Text × Text) Violation := Groups.of Violation.key r.violations

/-- In how many files there are violations. -/
def filesWithViolations (r : Report) : Nat := (r.violations.map Violation.key).eraseDups.length

/-- The last line shown for a report. -/
def summary (r : Report) : Text :=
  "Checkstyle files with violations: ".toList ++ Text.natural r.filesWithViolations

/-- The exit status that tells whether a report passed. -/
def exitCode (r : Report) : Nat := if r.passed then 0 else 1

end Report

end InsecureLinks
