import InsecureLinks.CommandLine.Check
import InsecureLinks.CommandLine.Invocation

/-!
# The program

Replacing in a project, showing the history, and the program as a whole: from its arguments to what
it shows and the status in which it ends.
-/

namespace InsecureLinks.CommandLine

/-! ## Replacing in a project -/

namespace Replacing

/-- Shows what was changed, or would be. -/
def showReplaced (s : Surroundings) (dryRun : Bool) (r : Replaced) : Command Unit := do
  if r.filesChanged.isEmpty then Command.line s "[green]Nothing to replace.[/green]".toList
  else
    let verb := if dryRun then "Would update".toList else "Updated".toList
    for path in r.filesChanged do
      Command.line s ("  ".toList ++ verb ++ ' ' :: Markup.tagged "cyan" (Markup.escape path))
    Command.line s ('\n' :: Text.natural r.replacements ++ " replacement(s) in ".toList ++
      Text.natural r.filesChanged.length ++ " file(s)".toList ++
      (if dryRun then " [dim](dry run)[/dim]".toList else []))

/-- The report of the scan of a project. -/
def inspect (s : Surroundings) (c : Choices) (project : Text) : Command Report := do
  let settings ← Command.settings s c project
  let p ← Command.plan s settings
  Command.scan s p

/-- Replaces in the project in a folder. -/
def run (s : Surroundings) (c : Choices) (project : Text) : Command Nat := do
  match ← Command.guarded s (inspect s c project) fun _ => return () with
  | none => return faultStatus
  | some report =>
    let replaced ← Command.change .replace (Replace.report c.dryRun s.here report)
    showReplaced s c.dryRun replaced
    return 0

end Replacing

/-! ## Showing the history -/

namespace History

/-- The line that is shown if there is nothing to show. -/
def emptyLine : Text := "[dim]No scans recorded yet.[/dim]".toList

/-- The scans that are shown; none if there is no history file. -/
def rows (s : Surroundings) (limit : Int) : Command (List Store.ScanRow) := do
  let folder ← Command.lift .settings (Settings.defaultDataDir s.environment)
  let file := folder.join Check.historyName
  let tree ← Command.tree
  if ← Command.lift .access (tree.ask (fun _ => true) s.here file.text) then
    Command.change .store (Store.withFile s.here file (Store.History.list limit 0))
  else return []

/-- Shows the latest scans that were saved. -/
def run (s : Surroundings) (c : Choices) : Command Nat := do
  let rows ← rows s c.limit
  if rows.isEmpty then Command.line s emptyLine
  else Command.print s (.table (← Command.lift .history (ScanTable.table rows)))
  return 0

end History

/-! ## The program as a whole -/

/-- What a run of the program comes to, apart from what it changes. -/
structure Outcome where
  status : Nat
  /-- What is shown on the console. -/
  prints : List Print
  /-- What is written to the standard output. -/
  output : Text
deriving Repr

/-- Why the program fails. -/
inductive ProgramFault
  | usage (f : UsageFault)
  | command (f : CommandFault)
deriving Repr

namespace Program

/-- The text that shows the version. -/
def versionText : Text := "nohttp, version 0.1.0\n".toList

/-- A line of a help text. -/
def helpLine (name purpose : Text) : Text :=
  "  ".toList ++ name ++ List.replicate (26 - name.length) ' ' ++ ' ' :: purpose ++ ['\n']

/-- The line of a switch. -/
def switchLine (s : Switch) : Text :=
  helpLine (Text.join ", ".toList (s.names.map fun (name, _) => name.toList)) s.purpose.toList

/-- The help text of the program or of one action. -/
def helpText : Option Action → Text
  | none =>
    "Usage: nohttp [OPTIONS] COMMAND [ARGS]...\n\n".toList ++
      frontSwitches.flatMap switchLine ++ ['\n'] ++
      Action.all.flatMap fun a => helpLine a.name a.purpose.toList
  | some a =>
    "Usage: nohttp ".toList ++ a.name ++ " [OPTIONS]".toList ++
      (if a.hasProject then " [PROJECT_DIR]".toList else []) ++ "\n\n".toList ++
      a.purpose.toList ++ "\n\n".toList ++ a.switches.flatMap switchLine

/-- Carries out an action. -/
def command (s : Surroundings) (action : Action) (c : Choices) (project : Text) : Command Nat :=
  match action with
  | .check => Check.run s c project
  | .replace => Replacing.run s c project
  | .history => History.run s c

/-- Carries out an action in a workspace where nothing has been shown yet. -/
def perform (s : Surroundings) (action : Action) (c : Choices) (project : Text) (w : Workspace) :
    Workspace × Except ProgramFault Outcome :=
  let (outcome, after) := (command s action c project).run { w with prints := [] }
  match outcome with
  | .ok status => (after, .ok ⟨status, after.prints, []⟩)
  | .error f => (after, .error (.command f))

/-- Runs the program. -/
def run (s : Surroundings) (args : List Text) (w : Workspace) :
    Workspace × Except ProgramFault Outcome :=
  match Invocation.read w.tree s.here args with
  | .error f => (w, .error (.usage f))
  | .ok .showVersion => (w, .ok ⟨0, [], versionText⟩)
  | .ok (.showHelp action) => (w, .ok ⟨0, [], helpText action⟩)
  | .ok (.act action c project) => perform s action c project w

end Program

end InsecureLinks.CommandLine
