import InsecureLinks.CommandLine.Program
import InsecureLinks.Digest.Sha256
import InsecureLinks.Output.Terminal
import InsecureLinks.Store.Archive
import InsecureLinks.Yaml.Document
import Std.Data.HashMap
import Std.Time.DateTime.Timestamp

/-!
# The command line program

Carries the program out on a disk.  What the program will look at is read into a file tree first;
then the program runs on that tree; then what it has changed there is written to the disk.

The time that a scan takes is the time of reading the tree, since nothing else waits for the disk.

Pages are left empty: there is no library here that makes them.
-/

open InsecureLinks

namespace InsecureLinks.Disk

/-! ## Reading -/

/-- What has been read. -/
structure Survey where
  nodes : Std.HashMap String (Place × Node)
  unlistable : List Route
  unreadable : List Route

/-- Reading from the disk. -/
abbrev Reading (α : Type) := StateT Survey IO α

/-- The path of a place. -/
def pathOf (place : Place) : Path := ⟨.top, place⟩

/-- The path of a place as the disk takes it. -/
def written (place : Place) : String := String.ofList (pathOf place).text

/-- A place in the folder above it. -/
def entryOf (place : Place) : IO.FS.DirEntry where
  root := written place.dropLast
  fileName := String.ofList (place.getLast?.getD [])

/-- A name that nothing has. -/
def noName : Text := [Char.ofNat 0]

/-- The names of a path that the disk gives. -/
def placeOf (path : String) : Place := (Path.ofText path.toList).names

/-- Where a link leads in the end; nowhere if it leads to nothing. -/
def targetOf (place : Place) : IO (Option Place) := do
  try
    let real ← IO.FS.realPath (entryOf place).path
    return some (placeOf real.toString)
  catch _ => return none

/-- The bytes of a file, as tables if it is the history file. -/
def contentOf (history place : Place) (b : ByteArray) : Content :=
  let bytes := b.toList
  if place = history then
    match (Utf8.decode bytes).toOption.bind Store.Archive.ofText? with
    | some t => .tables t
    | none => .bytes bytes
  else .bytes bytes

/-- Puts a node where it is. -/
def note (place : Place) (node : Node) : Reading Unit :=
  modify fun s => { s with nodes := s.nodes.insert (written place) (place, node) }

mutual

/-- Reads what is at a place, and if `deep` what is beneath it. -/
partial def readPlace (history : Place) (deep : Bool) (place : Place) : Reading Unit := do
  let kind : Option IO.FS.FileType ←
    try pure (some (← (entryOf place).path.symlinkMetadata).type)
    catch _ => pure none
  match kind with
  | none => return ()
  | some .symlink =>
    match ← targetOf place with
    | none => note place (.link noName)
    | some target =>
      note place (.link (pathOf target).text)
      readWay history deep target
  | some .dir =>
    if !place.isEmpty then note place .folder
    if deep then readFolder history place
  | some .file =>
    try note place (.file (contentOf history place (← IO.FS.readBinFile (written place))))
    catch _ =>
      note place (.file (.bytes []))
      modify fun s => { s with unreadable := place :: s.unreadable }
  | some .other => note place .pipe

/-- Reads what is in a folder. -/
partial def readFolder (history place : Place) : Reading Unit := do
  let entries ←
    try pure (← (entryOf place).path.readDir).toList
    catch _ => do
      modify fun s => { s with unlistable := place :: s.unlistable }
      pure []
  for entry in entries do
    let next := place ++ [entry.fileName.toList]
    if !(← get).nodes.contains (written next) then readPlace history true next

/-- Reads what is on the way to a place, and then what is there. -/
partial def readWay (history : Place) (deep : Bool) (place : Place) : Reading Unit := do
  for k in List.range place.length do
    let next := place.take k
    if !(← get).nodes.contains (written next) then readPlace history false next
  if deep || !(← get).nodes.contains (written place) then readPlace history deep place

end

/-- Reads what a path leads to. -/
def readPath (history here : Place) (deep : Bool) (t : Text) : Reading Unit :=
  let route := FileTree.routeOf here (Path.ofText t)
  readWay history deep route

/-- The file tree of what has been read. -/
def Survey.tree (s : Survey) : FileTree := ⟨s.nodes.values, s.unlistable, s.unreadable⟩

/-- The texts in an argument that may be paths. -/
def pathsIn (t : Text) : List Text := [t, (t.dropWhile (· ≠ '=')).drop 1, t.drop 2]

/-- Reads what an action on a project will look at. -/
def readProject (s : CommandLine.Surroundings) (history : Place) (c : CommandLine.Choices)
    (project : Text) : Reading Unit := do
  let look := readPath history s.here false
  let folder := Path.ofText project
  look (folder.join Settings.fileName).text
  look (folder.join Settings.defaultWhitelist).text
  let w : CommandLine.Workspace := ⟨(← get).tree, 0, []⟩
  match (CommandLine.Command.settings s c project).run.run w with
  | (.error _, _) => return ()
  | (.ok settings, _) =>
    if let .ok (some p) := settings.whitelistPath s.environment (← get).tree s.here then look p.text
    if let .ok p := settings.reportPath s.environment then
      look p.text
      look (p.join (ReportFiles.baseName ++ ".xml".toList)).text
      look (p.join (ReportFiles.baseName ++ ".html".toList)).text
    if let .ok t := settings.target s.environment then
      for root in t.roots do readPath history s.here true root

/-- Reads what the program will look at. -/
def readAll (s : CommandLine.Surroundings) (history : Place) (args : List Text) :
    Reading Unit := do
  readWay history false s.here
  readWay history false history
  for t in args.flatMap pathsIn do
    if !t.isEmpty then readPath history s.here false t
  match CommandLine.Invocation.read (← get).tree s.here args with
  | .ok (.act action c project) => if action.hasProject then readProject s history c project
  | _ => return ()

/-! ## Writing -/

/-- Writes what is at a place, if it has changed. -/
def writePlace (before : Std.HashMap String (Place × Node)) (place : Place) (node : Node) : IO Unit := do
  match node with
  | .folder => if !before.contains (written place) then IO.FS.createDirAll (written place)
  | .file (.tables t) =>
    IO.FS.writeFile (written place) (String.ofList (Store.Archive.text t))
  | .file (.bytes b) =>
    let same :=
      match before[written place]? with
      | some (_, .file (.bytes old)) => old = b
      | _ => false
    if !same then IO.FS.writeBinFile (written place) ⟨b.toArray⟩
  | _ => return ()

/-! ## What the program is started with -/

/-- The environment of the program. -/
def environment : IO Environment := do
  let names :=
    ["HOME", "XDG_DATA_HOME", "NOHTTP_WORKERS", "NOHTTP_TIMEOUT", "NOHTTP_MAX_FILE_SIZE"]
  let mut values : List (Text × Text) := []
  for name in names do
    if let some value ← IO.getEnv name then values := (name.toList, value.toList) :: values
  let accounts ← try IO.FS.lines "/etc/passwd" catch _ => pure #[]
  return ⟨values, ['/'], Environment.homesOfAccounts (accounts.toList.map String.toList)⟩

/-- The number of processors; zero if it is not known. -/
def processors : IO Nat := do
  let lines ← try IO.FS.lines "/proc/cpuinfo" catch _ => pure #[]
  return lines.toList.countP fun l => "processor".isPrefixOf l

/-- A new identifier. -/
def newId : IO Text := do
  let bytes ← IO.getRandomBytes 6
  return bytes.toList.flatMap fun b => Text.hexadecimal 2 b.toNat

/-- The time, in seconds since the beginning of 1970. -/
def currentTime : IO Binary64 := do
  let t ← Std.Time.Timestamp.now
  let n := t.toNanosecondsSinceUnixEpoch.val
  return Binary64.ofQuotient (n < 0) n.natAbs 1000000000

/-- The place of the history file. -/
def historyPlace (e : Environment) (here : Place) : Place :=
  match Settings.defaultDataDir e with
  | .ok folder => FileTree.routeOf here (folder.join CommandLine.Check.historyName)
  | .error _ => []

/-- Shows how the program ended, and gives the status. -/
def conclude (after : CommandLine.Workspace)
    (outcome : Except CommandLine.ProgramFault CommandLine.Outcome) : IO UInt32 := do
  let showLine (t : Text) : IO Unit := IO.eprintln (String.ofList t)
  match outcome with
  | .ok o =>
    for p in o.prints do showLine (Terminal.text p)
    IO.print (String.ofList o.output)
    return o.status.toUInt32
  | .error (.usage .noArguments) =>
    showLine (CommandLine.Program.helpText none)
    return 2
  | .error (.usage f) =>
    showLine ("Error: ".toList ++ f.message?.getD [])
    return 2
  | .error (.command f) =>
    for p in after.prints do showLine (Terminal.text p)
    showLine ("Error: ".toList ++ f.message?.getD "the history is not as it should be".toList)
    return 1

end InsecureLinks.Disk

open InsecureLinks.Disk in
/-- Runs the program on the disk. -/
def main (args : List String) : IO UInt32 := do
  let args := args.map String.toList
  let here := placeOf (← IO.FS.realPath (← IO.currentDir)).toString
  let e ← environment
  let id ← newId
  let start ← IO.monoMsNow
  let s : CommandLine.Surroundings :=
    { environment := e, here, yaml := Yaml.read, screen := .plain, processors := ← processors
      clock := .stepping Binary64.zero, now := Binary64.zero, hash := Sha256.hex
      newId := fun _ => id }
  let (_, survey) ← (readAll s (historyPlace e here) args).run ⟨∅, [], []⟩
  let elapsed := Binary64.ofQuotient false ((← IO.monoMsNow) - start) 1000
  let readings := fun k => if k = 0 then Binary64.zero else elapsed
  let s := { s with now := ← currentTime, clock := { s.clock with readings } }
  let (after, outcome) := CommandLine.Program.run s args ⟨survey.tree, 0, []⟩
  for (place, node) in after.tree.nodes do
    writePlace survey.nodes place node
  conclude after outcome
