import InsecureLinks.CommandLine.Choices
import InsecureLinks.Output.ReportFiles
import InsecureLinks.Output.ScanTable
import InsecureLinks.Replace
import InsecureLinks.Settings.Basic
import InsecureLinks.Store.CachedScan
import InsecureLinks.Store.History
import InsecureLinks.Whitelist.File

/-!
# Commands

A command changes a workspace, shows things on the console, and ends in a status or in a fault.
After a fault, what was done before it stays done.

Some faults are foreseen: a project is not set up as it should be, or a scan does not end in time.
These a command shows and ends with the status for them.  All others it hands on.

What reads settings, shows markup and makes pages are libraries, so a command is given them.  Its
arguments and variables are taken to hold no zero, as a system gives none.
-/

namespace InsecureLinks.CommandLine

/-- A library that shows markup and makes pages of it. -/
structure Screen where
  /-- Why something is not shown, if it is not: what it says is no markup. -/
  refusal? : Print → Option Text
  page : Html.Maker

/-- The screen that shows everything and whose pages are empty. -/
def Screen.plain : Screen := ⟨fun _ => none, fun _ => .ok []⟩

/-- What a command is started with. -/
structure Surroundings where
  environment : Environment
  /-- The current folder. -/
  here : Place
  yaml : Yaml.Reader
  screen : Screen
  /-- How many processors there are; zero if that is not known. -/
  processors : Nat
  clock : Clock
  /-- The time at which a scan ends. -/
  now : Binary64
  hash : Fingerprint.Hash
  /-- The identifiers for scans that are saved, one after another. -/
  newId : Nat → Text

/-- What a command works on. -/
structure Workspace where
  tree : FileTree
  /-- How many identifiers have been given out. -/
  idsUsed : Nat
  /-- What has been shown. -/
  prints : List Print
deriving Repr

/-- Why a command fails. -/
inductive CommandFault
  | settings (f : SettingsFault)
  | whitelist (f : WhitelistFault)
  | scan (f : ScanFault)
  | store (f : Store.StoreFault)
  | keptReport (f : Report.Fault)
  | replace (f : ReplaceFault)
  | reportFiles (f : ReportFiles.Fault)
  | history (f : ScanTable.Fault)
  | access (f : AccessFault)
  /-- A report that cannot be shown. -/
  | unshown (f : Console.Fault)
  /-- Something that the screen does not show. -/
  | refused (message : Text)
deriving Repr

namespace CommandFault

/-- The wording of a fault, if it has one. -/
def message? : CommandFault → Option Text
  | settings f => f.message?
  | whitelist f => some f.message
  | scan f => some f.message
  | store f => some f.message
  | keptReport f => f.message?
  | replace f => f.message?
  | reportFiles f => some f.message
  | history f => f.message?
  | access f => some f.message
  | unshown f => some f.message
  | refused message => some message

/-- Whether a fault is foreseen. -/
def isForeseen : CommandFault → Bool
  | settings f => f.isForeseen
  | whitelist (.entry _) => false
  | whitelist .zero => false
  | whitelist _ => true
  | scan (.walk (.noSuchRoot _)) => true
  | scan (.walk (.rootIsNoFolder _)) => true
  | scan (.timedOut _) => true
  | _ => false

end CommandFault

/-- A command, or a part of one. -/
abbrev Command (α : Type) := ExceptT CommandFault (StateM Workspace) α

/-- The status of a command that ends in a foreseen fault. -/
def faultStatus : Nat := 2

namespace Command

/-- Ends in a fault, if there is one. -/
def lift {ε α : Type} (fault : ε → CommandFault) (x : Except ε α) : Command α :=
  match x with
  | .ok a => pure a
  | .error f => throw (fault f)

/-- Shows something, unless it is refused. -/
def print (s : Surroundings) (p : Print) : Command Unit :=
  match s.screen.refusal? p with
  | some message => throw (.refused message)
  | none => modify fun w => { w with prints := w.prints ++ [p] }

/-- Shows a line. -/
def line (s : Surroundings) (t : Text) : Command Unit := print s (.line t)

/-- The files as they are now. -/
def tree : Command FileTree := return (← get).tree

/-- Changes the files, up to a fault. -/
def change {ε α : Type} (fault : ε → CommandFault)
    (step : FileTree → FileTree × Except ε α) : Command α := do
  let (tree, outcome) := step (← tree)
  modify fun w => { w with tree }
  lift fault outcome

/-- The line that shows a fault. -/
def faultLine (message : Text) : Text := Markup.tagged "red" "Error:".toList ++ ' ' ::
  Markup.escape message

/-- Carries out a part of a command whose foreseen faults are shown; then there is no value. -/
def guarded {α : Type} (s : Surroundings) (part : Command α)
    (before : CommandFault → Command Unit) : Command (Option α) :=
  tryCatch (some <$> part) fun f =>
    if f.isForeseen then do
      before f
      line s (faultLine (f.message?.getD []))
      return none
    else throw f

/-! ## Settings and scans -/

/-- The settings of a project with what was chosen put over them. -/
def applyChoices (c : Choices) (s : Settings) : Settings where
  projectDir := s.projectDir
  roots := if c.roots.isEmpty then s.roots else c.roots
  included := s.included ++ c.included
  excluded := s.excluded ++ c.excluded
  whitelistFile := c.whitelist.filter (· ≠ []) <|> s.whitelistFile
  buildDir := s.buildDir
  workers := c.workers <|> s.workers
  maxFileSize := s.maxFileSize
  timeout := c.timeout <|> s.timeout
  reportDir := (c.reportDir.filter (· ≠ [])).getD s.reportDir
  reports := s.reports && !c.noReports
  dataDir := s.dataDir

/-- The settings that a command goes by. -/
def settings (s : Surroundings) (c : Choices) (project : Text) : Command Settings := do
  let loaded := Settings.load s.yaml s.environment (← tree) s.here project c.settingsFile
  return applyChoices c (← lift .settings loaded)

/-- A scan that is set up. -/
structure Plan where
  target : Target
  whitelist : Whitelist
  options : ScanOptions

/-- Sets a scan up: finds its whitelist and its roots. -/
def plan (s : Surroundings) (settings : Settings) : Command Plan := do
  let path ← lift .settings (settings.whitelistPath s.environment (← tree) s.here)
  let whitelist ← lift .whitelist (Whitelist.load (← tree) s.here (path.map Path.text))
  let target ← lift .settings (settings.target s.environment)
  return ⟨target, whitelist,
    ⟨settings.workers, settings.maxFileSize, settings.timeout, s.processors⟩⟩

/-- Carries a scan out. -/
def scan (s : Surroundings) (p : Plan) : Command Report := do
  lift .scan (Scan.run (← tree) s.here p.target p.whitelist p.options s.clock s.now)

end Command

end InsecureLinks.CommandLine
