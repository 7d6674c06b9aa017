import InsecureLinks.Files.FileTree
import InsecureLinks.Store.Tables

/-!
# Connections

A connection sees the committed tables of a history file with its own changes in them, until a
commit makes these permanent.  An operation that fails halfway leaves the changes it has made; the
next commit makes them permanent too, and closing the connection loses them.

Opening brings the layout up to date: tables that are missing are made, and the version is set.
Nothing is taken away.
-/

namespace InsecureLinks.Store

/-- Why an operation on a history file fails. -/
inductive StoreFault
  | noTable (name : Text)
  | missingValue (table column : Text)
  | stillReferred
  | tooLarge
  /-- The value in this position, of this kind, cannot be stored. -/
  | unsupported (position : Nat) (kind : Text)
  | cannotOpen
  | otherFormat
  | noFolder (f : AccessFault)
deriving DecidableEq, Repr

/-- The wording of a fault. -/
def StoreFault.message : StoreFault → Text
  | .noTable name => "no such table: ".toList ++ name
  | .missingValue table column =>
    "NOT NULL constraint failed: ".toList ++ table ++ '.' :: column
  | .stillReferred => "FOREIGN KEY constraint failed".toList
  | .tooLarge => "Python int too large to convert to SQLite INTEGER".toList
  | .unsupported position kind =>
    "Error binding parameter ".toList ++ Text.natural position ++ ": type ".toList ++
      kind.quoted ++ " is not supported".toList
  | .cannotOpen => "unable to open database file".toList
  | .otherFormat => "file is not a database".toList
  | .noFolder f => f.message

/-! ## Layout -/

/-- The version of the layout. -/
def layoutVersion : Int := 1

namespace Tables

/-- The tables with an empty one for each that is missing. -/
def complete (t : Tables) : Tables :=
  { t with
    versions := some (t.versions.getD [])
    scans := some (t.scans.getD [])
    violations := some (t.violations.getD ⟨[], 0⟩)
    cache := some (t.cache.getD []) }

/-- Whether the layout is not known to be up to date. -/
def isOutdated (t : Tables) : Bool :=
  match t.versions with
  | none => true
  | some [] => true
  | some (v :: _) => v < layoutVersion

/-- The tables with the layout brought up to date. -/
def migrate (t : Tables) : Tables :=
  if t.isOutdated then
    { t.complete with versions := some [layoutVersion], changes := t.changes + 1 }
  else t

end Tables

/-! ## Connections -/

/-- The committed tables, and what the connection sees if it has changed something since. -/
structure Connection where
  committed : Tables
  pending : Option Tables
deriving Repr

namespace Connection

/-- The tables as the connection sees them. -/
def view (c : Connection) : Tables := c.pending.getD c.committed

/-- The connection once it sees other tables. -/
def see (c : Connection) (t : Tables) : Connection := { c with pending := some t }

/-- Makes what the connection sees permanent. -/
def commit (c : Connection) : Connection :=
  match c.pending with
  | none => c
  | some t => ⟨{ t with changes := c.committed.changes + 1 }, none⟩

end Connection

/-- An operation on a connection, which may change it even if it fails. -/
abbrev Operation (α : Type) := Connection → Connection × Except StoreFault α

namespace Operation

/-- Looks at the tables. -/
def ask {α : Type} (f : Tables → Except StoreFault α) : Operation α := fun c => (c, f c.view)

/-- Changes the tables and commits; a failed change leaves everything as it was. -/
def change (f : Tables → Except StoreFault Tables) : Operation Unit := fun c =>
  match f c.view with
  | .ok t => ((c.see t).commit, .ok ())
  | .error e => (c, .error e)

end Operation

/-- A table that has to be there. -/
def present {α : Type} (name : Text) (table : Option α) : Except StoreFault α :=
  match table with
  | some t => .ok t
  | none => .error (.noTable name)

/-! ## Looking after the layout -/

/-- The versions that are recorded. -/
def versions : Operation (List Int) :=
  Operation.ask fun t => present Tables.versionsName t.versions

/-- The names of the tables. -/
def tableNames : Operation (List Text) := Operation.ask fun t => .ok t.names

/-- Records one version or none. -/
def setVersion (version : Option Int) : Operation Unit :=
  Operation.change fun t => do
    let _ ← present Tables.versionsName t.versions
    return { t with versions := some version.toList }

/-- Whether a violation belongs to a scan that is there. -/
def Tables.isReferred (t : Tables) : Bool :=
  match t.violations with
  | none => false
  | some v => !v.rows.isEmpty

/-- The tables without the one with a name. -/
def Tables.drop (name : Text) (t : Tables) : Except StoreFault Tables :=
  if !t.names.contains name then .error (.noTable name)
  else if name = Tables.scansName then
    if t.isReferred then .error .stillReferred else .ok { t with scans := none }
  else if name = Tables.violationsName then .ok { t with violations := none }
  else if name = Tables.cacheName then .ok { t with cache := none }
  else .ok { t with versions := none }

/-- Takes a table away. -/
def drop (name : Text) : Operation Unit := Operation.change (Tables.drop name)

/-! ## Files -/

/-- The most bytes of a file that counts as a history file without tables. -/
def emptyFileBytes : Nat := 1

/-- The tables in a file. -/
def tablesOf : Content → Except StoreFault Tables
  | .tables t => .ok t
  | .bytes b => if b.length ≤ emptyFileBytes then .ok Tables.blank else .error .otherFormat

/-- The tables in what is at a place. -/
def tablesAt (node : Option Node) : Except StoreFault Tables :=
  match node with
  | none => .ok Tables.blank
  | some (.file content) => tablesOf content
  | some _ => .error .cannotOpen

/-- An open history file: where it is, and what the connection has not committed yet. -/
structure Opened where
  place : Place
  pending : Option Tables
deriving Repr

/-- Opens the history file at a path, which is made if it is not there, with the folders on the
way.  A folder that was made stays even if the file cannot be opened. -/
def openAt (here : Place) (p : Path) (tree : FileTree) : FileTree × Except StoreFault Opened :=
  let up := p.parent
  match tree.ensureFolders here up.start up.names.length up.names with
  | .error f => (tree, .error (.noFolder f))
  | .ok tree =>
    match tree.lookup true here p.text with
    | .error _ => (tree, .error .cannotOpen)
    | .ok found =>
      match tablesAt found.node with
      | .error f => (tree, .error f)
      | .ok t => (tree.put found.place (.file (.tables t.migrate)), .ok ⟨found.place, none⟩)

/-- The committed tables of an open history file. -/
def Opened.committed (o : Opened) (tree : FileTree) : Tables :=
  match tree.node? o.place with
  | some (.file (.tables t)) => t
  | _ => Tables.blank

/-- Carries out an operation on an open history file. -/
def Opened.perform {α : Type} (o : Opened) (operation : Operation α) (tree : FileTree) :
    FileTree × Opened × Except StoreFault α :=
  let (c, outcome) := operation ⟨o.committed tree, o.pending⟩
  (tree.put o.place (.file (.tables c.committed)), ⟨o.place, c.pending⟩, outcome)

/-- Opens a history file, carries out one operation and closes it again. -/
def withFile {α : Type} (here : Place) (p : Path) (operation : Operation α) (tree : FileTree) :
    FileTree × Except StoreFault α :=
  match openAt here p tree with
  | (tree, .error f) => (tree, .error f)
  | (tree, .ok o) =>
    let (tree, _, outcome) := o.perform operation tree
    (tree, outcome)

end InsecureLinks.Store
