import InsecureLinks.Text.Basic

/-!
# Switches

What can be chosen on the command line, how each choice is spelled, and which of them the program
itself and its actions know.
-/

namespace InsecureLinks.CommandLine

/-- A choice that is made on the command line. -/
inductive Switch
  | settings
  | verbose
  | version
  | help
  | root
  | included
  | excluded
  | whitelist
  | workers
  | timeout
  | reportDir
  | noReports
  | cache
  | record
  | dryRun
  | limit
deriving DecidableEq, Repr

/-- What the spelling of a switch means: that the choice is made, or unmade, or that a value
follows. -/
inductive Meaning
  | choice (b : Bool)
  | takesValue
deriving DecidableEq, Repr

/-- A switch as it is spelled in one way. -/
structure Spelling where
  name : Text
  switch : Switch
  meaning : Meaning
deriving DecidableEq, Repr

namespace Switch

/-- The spellings of a switch, and what they mean. -/
def names : Switch → List (String × Meaning)
  | settings => [("--config", .takesValue), ("-c", .takesValue)]
  | verbose => [("--verbose", .choice true), ("-v", .choice true)]
  | version => [("--version", .choice true)]
  | help => [("--help", .choice true)]
  | root => [("--root", .takesValue), ("-r", .takesValue)]
  | included => [("--include", .takesValue), ("-i", .takesValue)]
  | excluded => [("--exclude", .takesValue), ("-e", .takesValue)]
  | whitelist => [("--whitelist", .takesValue), ("-w", .takesValue)]
  | workers => [("--workers", .takesValue)]
  | timeout => [("--timeout", .takesValue)]
  | reportDir => [("--report-dir", .takesValue)]
  | noReports => [("--no-reports", .choice true)]
  | cache => [("--cache", .choice true), ("--no-cache", .choice false)]
  | record => [("--record", .choice true)]
  | dryRun => [("--dry-run", .choice true)]
  | limit => [("--limit", .takesValue), ("-n", .takesValue)]

/-- The spellings of a switch. -/
def spellings (s : Switch) : List Spelling := s.names.map fun (name, m) => ⟨name.toList, s, m⟩

/-- The spellings of a switch as messages give them. -/
def hint (s : Switch) : Text :=
  Text.join " / ".toList (s.names.map fun (name, _) => '\'' :: name.toList ++ ['\''])

/-- What a switch is for. -/
def purpose : Switch → String
  | settings => "A settings file to use instead of that of the project."
  | verbose => "Show all diagnostics."
  | version => "Show the version."
  | help => "Show this text."
  | root => "A folder to scan, from the project; can be repeated."
  | included => "Scan only files that match this pattern; can be repeated."
  | excluded => "Leave out files that match this pattern; can be repeated."
  | whitelist => "The whitelist file."
  | workers => "How many files are scanned at a time."
  | timeout => "Give up after this many seconds."
  | reportDir => "The folder for the report files."
  | noReports => "Write no report files."
  | cache => "Use the kept report if nothing has changed."
  | record => "Save the scan to the history."
  | dryRun => "Show what would change, and change nothing."
  | limit => "How many scans to show."

end Switch

/-- What the program can be told to do. -/
inductive Action
  | check
  | replace
  | history
deriving DecidableEq, Repr

namespace Action

/-- The actions. -/
def all : List Action := [check, replace, history]

/-- The name of an action. -/
def name : Action → Text
  | check => "check".toList
  | replace => "replace".toList
  | history => "history".toList

/-- The action with a name. -/
def ofName? (t : Text) : Option Action := all.find? fun a => a.name = t

/-- What an action is for. -/
def purpose : Action → String
  | check => "Find insecure links that are not whitelisted."
  | replace => "Make insecure links that are not whitelisted secure."
  | history => "Show the scans that were saved."

/-- The switches for what is scanned and how. -/
def scanSwitches : List Switch :=
  [.root, .included, .excluded, .whitelist, .workers, .timeout]

/-- The switches of an action. -/
def switches : Action → List Switch
  | check => scanSwitches ++ [.reportDir, .noReports, .cache, .record, .help]
  | replace => scanSwitches ++ [.dryRun, .help]
  | history => [.limit, .help]

/-- Whether an action is about a project, whose folder is then the one plain argument. -/
def hasProject : Action → Bool
  | check => true
  | replace => true
  | history => false

end Action

/-- The switches that come before the action. -/
def frontSwitches : List Switch := [.settings, .verbose, .version, .help]

end InsecureLinks.CommandLine
