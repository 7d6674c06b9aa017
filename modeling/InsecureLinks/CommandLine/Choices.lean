import InsecureLinks.CommandLine.Arguments
import InsecureLinks.Files.FileTree
import InsecureLinks.Number.Literal

/-!
# Choices

The values of switches, checked.  Switches are checked in the order of their first uses, and of a
switch that has one value only the last use counts.
-/

namespace InsecureLinks.CommandLine

/-- What is chosen on the command line. -/
structure Choices where
  settingsFile : Option Text
  verbose : Bool
  roots : List Text
  included : List Text
  excluded : List Text
  whitelist : Option Text
  workers : Option Int
  timeout : Option Binary64
  reportDir : Option Text
  noReports : Bool
  cache : Bool
  record : Bool
  dryRun : Bool
  limit : Int
deriving DecidableEq, Repr

namespace Choices

/-- How many scans are shown unless a number is given. -/
def defaultLimit : Int := 20

/-- Nothing is chosen. -/
def initial : Choices :=
  ⟨none, false, [], [], [], none, none, none, none, false, false, false, false, defaultLimit⟩

/-! ## Values -/

/-- A path that must not lead to a folder, and must lead somewhere if `mustExist`. -/
def filePath (tree : FileTree) (here : Place) (mustExist : Bool) (t : Text) :
    Except ValueFault Text :=
  match tree.reach here t with
  | .ok (_, node) => if FileTree.isFolder node then .error (.isFolder "File" t) else .ok t
  | .error _ => if mustExist then .error (.absent "File" t) else .ok t

/-- A path that must not lead to a file, and must lead somewhere if `mustExist`. -/
def folderPath (tree : FileTree) (here : Place) (mustExist : Bool) (t : Text) :
    Except ValueFault Text :=
  match tree.reach here t with
  | .ok (_, node) => if FileTree.isFile node then .error (.isFile "Directory" t) else .ok t
  | .error _ => if mustExist then .error (.absent "Directory" t) else .ok t

/-- A whole number that is at least 1. -/
def positiveWhole (t : Text) : Except ValueFault Int :=
  match Literal.readInteger t with
  | .error _ => .error (.notNumber "integer" t)
  | .ok i => if i < 1 then .error (.outOfRange (Text.integer i) "x>=1") else .ok i

/-- A real number that is not zero or less. -/
def positiveReal (t : Text) : Except ValueFault Binary64 :=
  match Literal.readReal t with
  | .error _ => .error (.notNumber "float" t)
  | .ok x =>
    if x.isZero || x.lt Binary64.zero then .error (.outOfRange (Decimal.shortest x) "x>0")
    else .ok x

/-! ## Taking choices from arguments -/

/-- The values among what is said with a switch. -/
def values (given : List Given) : List Text :=
  given.filterMap fun
    | .value t => some t
    | .choice _ => none

/-- The value that counts. -/
def lastValue (given : List Given) : Text := (values given).getLast?.getD []

/-- Whether the choice is made in the end. -/
def isMade (given : List Given) : Bool := given.getLast? = some (.choice true)

/-- The value that counts, read and checked. -/
def checked {α : Type} (s : Switch) (read : Text → Except ValueFault α) (given : List Given) :
    Except UsageFault α :=
  (read (lastValue given)).mapError (.badValue s.hint)

/-- The choices with what is said with one switch. -/
def set (tree : FileTree) (here : Place) (c : Choices) (s : Switch) (given : List Given) :
    Except UsageFault Choices :=
  match s with
  | .settings => do
    return { c with settingsFile := some (← checked s (filePath tree here true) given) }
  | .verbose => .ok { c with verbose := isMade given }
  | .root => .ok { c with roots := values given }
  | .included => .ok { c with included := values given }
  | .excluded => .ok { c with excluded := values given }
  | .whitelist => do
    return { c with whitelist := some (← checked s (filePath tree here false) given) }
  | .workers => do return { c with workers := some (← checked s positiveWhole given) }
  | .timeout => do return { c with timeout := some (← checked s positiveReal given) }
  | .reportDir => do
    return { c with reportDir := some (← checked s (folderPath tree here false) given) }
  | .noReports => .ok { c with noReports := isMade given }
  | .cache => .ok { c with cache := isMade given }
  | .record => .ok { c with record := isMade given }
  | .dryRun => .ok { c with dryRun := isMade given }
  | .limit => do return { c with limit := ← checked s positiveWhole given }
  | .version => .ok c
  | .help => .ok c

/-- The choices with all that is said in some arguments. -/
def take (tree : FileTree) (here : Place) (c : Choices) (a : Arguments) :
    Except UsageFault Choices :=
  a.switches.foldlM (fun c s => set tree here c s (a.givenTo s)) c

end Choices

end InsecureLinks.CommandLine
