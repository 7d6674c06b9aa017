import InsecureLinks.CommandLine.Command

/-!
# Checking a project

Scans a project and shows what was found.  The report may be taken from the history file if nothing
has changed, is written to report files unless that is turned off, and may be saved.  The status
tells whether the project passed.
-/

namespace InsecureLinks.CommandLine

namespace Check

/-- The name of the history file in the folder for data. -/
def historyName : Text := "nohttp.db".toList

/-- The history file. -/
def historyFile (settings : Settings) : Path := settings.dataDir.join historyName

/-- The line with which a check begins. -/
def openingLine (projectDir : Path) : Text :=
  Markup.tagged "bold" "nohttp".toList ++ " checking ".toList ++
    Markup.tagged "cyan" (Markup.escape projectDir.text) ++ ['\n']

/-- The fault of a scan with reuse. -/
def cachedFault : Store.CachedScanFault → CommandFault
  | .scan f => .scan f
  | .store f => .store f
  | .report f => .keptReport f

/-- Scans, or takes the report that is kept if nothing has changed. -/
def scanOrReuse (s : Surroundings) (settings : Settings) (p : Command.Plan) : Command Report := do
  let request : Store.CachedScan.Request :=
    ⟨p.target, p.whitelist, p.options, historyFile settings⟩
  let (report, kept) ←
    Command.change cachedFault (Store.CachedScan.run s.hash s.here request s.clock s.now)
  if kept then
    Command.line s
      "[dim]Nothing changed since the last scan, using cached report.[/dim]".toList
  return report

/-- The line that says how far a scan came that did not end in time. -/
def partialLine (t : ScanTimeout) : Text :=
  Markup.tagged "dim" ("Partial scan: ".toList ++ Text.integer t.report.filesScanned ++
    " files, ".toList ++ Text.natural t.report.violationCount ++
    " violation(s) before the timeout.".toList)

/-- Shows how far a scan came that did not end in time. -/
def showPartial (s : Surroundings) : CommandFault → Command Unit
  | .scan (.timedOut t) => Command.line s (partialLine t)
  | _ => return ()

/-- The settings of a check and the report of its scan. -/
def inspect (s : Surroundings) (c : Choices) (project : Text) : Command (Settings × Report) := do
  let settings ← Command.settings s c project
  let p ← Command.plan s settings
  Command.line s (openingLine settings.projectDir)
  let report ← if c.cache then scanOrReuse s settings p else Command.scan s p
  return (settings, report)

/-- The line that says where a report file is. -/
def writtenLine (p : Path) : Text :=
  Markup.tagged "dim" ("Report written to ".toList ++ Markup.escape p.text)

/-- Writes the report files and shows where they are. -/
def writeFiles (s : Surroundings) (settings : Settings) (r : Report) : Command Unit := do
  let folder ← Command.lift .settings (settings.reportPath s.environment)
  let paths ← Command.change .reportFiles
    (ReportFiles.write s.screen.page s.here folder true true r)
  for p in paths do Command.line s (writtenLine p)

/-- Saves a report and shows under which identifier. -/
def save (s : Surroundings) (file : Path) (r : Report) : Command Unit := do
  let opened ← Command.change .store (Store.openAt s.here file)
  let id := s.newId (← get).idsUsed
  modify fun w => { w with idsUsed := w.idsUsed + 1 }
  Command.change .store fun tree =>
    let (tree, _, outcome) := opened.perform (Store.History.save id (Report.Draft.of r)) tree
    (tree, outcome)
  Command.line s (Markup.tagged "dim" ("Recorded as scan ".toList ++ id))

/-- The last line of a check. -/
def closingLine (r : Report) : Text :=
  if r.passed then r.summary else '\n' :: Markup.tagged "red" r.summary

/-- What is done with a report. -/
def conclude (s : Surroundings) (c : Choices) (settings : Settings) (r : Report) :
    Command Nat := do
  let prints ← Command.lift .unshown (Console.report c.verbose r)
  for p in prints do Command.print s p
  if settings.reports then writeFiles s settings r
  if c.record then save s (historyFile settings) r
  Command.line s (closingLine r)
  return r.exitCode

/-- Checks the project in a folder. -/
def run (s : Surroundings) (c : Choices) (project : Text) : Command Nat := do
  match ← Command.guarded s (inspect s c project) (showPartial s) with
  | none => return faultStatus
  | some (settings, r) => conclude s c settings r

end Check

end InsecureLinks.CommandLine
