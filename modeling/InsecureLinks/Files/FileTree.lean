import InsecureLinks.Files.Path
import InsecureLinks.Store.Tables

/-!
# File trees

A file tree says what is at each place.  A place is the list of names that leads there from the
top folder without links, so every file and folder has exactly one.  Looking up a path follows the
links on it, up to a limit.

Two kinds of access can be denied, each for a list of routes: listing a folder and opening a file.
A route is a path made absolute by erasing `..` with the name before it, links or not.

Three things are assumed of the disk that a tree stands for.  No file has two names: a file that is
written is written at its one place, so hard links are left out.  Names and the targets of links
are UTF-8 and hold no zero.  And the limits on a written path (`maxPathBytes`, `maxNameBytes`) are
those of looking it up; listing the folder that a path leads to is not held to them.
-/

namespace InsecureLinks

/-- A list of names from the top folder, free of links. -/
abbrev Place := List Text

/-- A list of names from the top folder as it is written. -/
abbrev Route := List Text

/-- The content of a file. -/
inductive Content
  | bytes (b : Utf8.Bytes)
  | tables (t : Store.Tables)
deriving Repr

namespace Content

/-- What a reader of the file sees. -/
def toBytes : Content → Utf8.Bytes
  | bytes b => b
  | tables t => t.bytes

end Content

/-- What can be at a place. -/
inductive Node
  | file (content : Content)
  | folder
  | link (target : Text)
  /-- Something that is neither a file nor a folder nor a link. -/
  | pipe
deriving Repr

/-- Why an access fails. -/
inductive Cause
  | notFound
  | denied
  | alreadyExists
  | notAFolder
  | isAFolder
  | nameTooLong
  | tooManyLinks
deriving DecidableEq, Repr

namespace Cause

/-- The number of a cause. -/
def number : Cause → Nat
  | notFound => 2
  | denied => 13
  | alreadyExists => 17
  | notAFolder => 20
  | isAFolder => 21
  | nameTooLong => 36
  | tooManyLinks => 40

/-- The wording of a cause. -/
def message : Cause → Text
  | notFound => "No such file or directory".toList
  | denied => "Permission denied".toList
  | alreadyExists => "File exists".toList
  | notAFolder => "Not a directory".toList
  | isAFolder => "Is a directory".toList
  | nameTooLong => "File name too long".toList
  | tooManyLinks => "Too many levels of symbolic links".toList

end Cause

/-- A failed access to a path. -/
structure AccessFault where
  cause : Cause
  path : Text
deriving DecidableEq, Repr

/-- The wording of a failed access. -/
def AccessFault.message (f : AccessFault) : Text :=
  "[Errno ".toList ++ Text.natural f.cause.number ++ "] ".toList ++ f.cause.message ++
    ": ".toList ++ f.path.quoted

/-- What is at each place, and what is denied. -/
structure FileTree where
  nodes : List (Place × Node)
  unlistable : List Route
  unreadable : List Route
deriving Repr

namespace FileTree

/-- The most bytes that a name may have. -/
def maxNameBytes : Nat := 255

/-- The most bytes that a written path may have. -/
def maxPathBytes : Nat := 4095

/-- The most links that one look-up follows. -/
def maxLinks : Nat := 40

/-- What is at a place; the top folder is always there. -/
def node? (t : FileTree) (place : Place) : Option Node :=
  match place with
  | [] => some .folder
  | _ => (t.nodes.find? fun (p, _) => p = place).map Prod.snd

/-! ## Looking up -/

/-- Where a look-up ends: at a place with what is there, or at a place that is free in a folder
that is there. -/
structure Found where
  place : Place
  node : Option Node
deriving Repr

/-- Where the target of a link begins when the link is in the folder `place`. -/
def linkStart (place : Place) (target : Text) : Place :=
  if (Path.ofText target).isAbsolute then [] else place

/-- The names of a written path as a look-up goes through them.  A slash at the end asks for a
folder, as `.` does. -/
def lookupNames (written : Text) : List Text :=
  (Text.fields '/' written).filter (· ≠ []) ++
    (if written.getLast? = some '/' then [Path.dot] else [])

/-- Goes from the folder at `place` through `names`.  The last name is followed if it is a link
exactly if `follow`; `links` more links may be followed. -/
def walk (t : FileTree) (follow : Bool) (links : Nat) (place : Place) (names : List Text) :
    Except Cause Found :=
  match names with
  | [] => .ok ⟨place, t.node? place⟩
  | name :: rest =>
    if name = Path.dot then walk t follow links place rest
    else if name = Path.dotDot then walk t follow links place.dropLast rest
    else if maxNameBytes < (Utf8.encode name).length then .error .nameTooLong
    else
      let next := place ++ [name]
      match t.node? next with
      | none => if rest.isEmpty then .ok ⟨next, none⟩ else .error .notFound
      | some .folder => walk t follow links next rest
      | some (.link target) =>
        if rest.isEmpty ∧ ¬follow then .ok ⟨next, some (.link target)⟩
        else
          match links with
          | 0 => .error .tooManyLinks
          | links + 1 => walk t follow links (linkStart place target) (lookupNames target ++ rest)
      | some node => if rest.isEmpty then .ok ⟨next, some node⟩ else .error .notAFolder
termination_by (links, names.length)

/-- Looks up a written path from the folder `here`.  The empty path leads nowhere. -/
def lookup (t : FileTree) (follow : Bool) (here : Place) (written : Text) : Except Cause Found :=
  if written.isEmpty then .error .notFound
  else if maxPathBytes < (Utf8.encode written).length then .error .nameTooLong
  else walk t follow maxLinks (linkStart here written) (lookupNames written)

/-- What a written path leads to, links followed; an error if it leads to nothing. -/
def reach (t : FileTree) (here : Place) (written : Text) : Except Cause (Place × Node) := do
  let found ← t.lookup true here written
  match found.node with
  | some node => return (found.place, node)
  | none => throw .notFound

/-- Whether an error only says that there is nothing. -/
def meansAbsent (c : Cause) : Bool := c = .notFound || c = .notAFolder || c = .tooManyLinks

/-- Whether what a path leads to has a property; nothing has none, and there is nothing where a path
with a zero in it leads.  An error that says more than that there is nothing is handed on. -/
def ask (t : FileTree) (property : Node → Bool) (here : Place) (written : Text) :
    Except AccessFault Bool :=
  match t.reach here written with
  | .ok (_, node) => .ok (property node)
  | .error c =>
    if meansAbsent c || written.contains (Char.ofNat 0) then .ok false else .error ⟨c, written⟩

/-- Whether a node is a folder. -/
def isFolder : Node → Bool
  | .folder => true
  | _ => false

/-- Whether a node is a file. -/
def isFile : Node → Bool
  | .file _ => true
  | _ => false

/-! ## Routes -/

/-- The route that goes from the route `start` through `names`, with `..` erasing the name before
it. -/
def routeFrom (start : Route) (names : List Text) : Route :=
  names.foldl (fun r n => if n = Path.dotDot then r.dropLast else r ++ [n]) start

/-- The route of a path that begins in the folder `here`. -/
def routeOf (here : Place) (p : Path) : Route :=
  routeFrom (if p.isAbsolute then [] else here) p.names

/-! ## Folders -/

/-- The names in the folder at a place, in the order of their characters. -/
def names (t : FileTree) (place : Place) : List Text :=
  (t.nodes.filterMap fun (p, _) =>
    match p.getLast? with
    | some name => if p.dropLast = place then some name else none
    | none => none).mergeSort fun a b => !Text.before b a

/-- The places of all folders. -/
def folders (t : FileTree) : List Place :=
  [] :: t.nodes.filterMap fun (p, n) => if isFolder n then some p else none

/-! ## Changing a tree -/

/-- The tree with a node at a place, whatever was there. -/
def put (t : FileTree) (place : Place) (node : Node) : FileTree :=
  if t.nodes.any fun (p, _) => p = place then
    { t with nodes := t.nodes.map fun (p, n) => if p = place then (p, node) else (p, n) }
  else { t with nodes := t.nodes ++ [(place, node)] }

/-- The tree without what is at a place and beneath it. -/
def remove (t : FileTree) (place : Place) : FileTree :=
  { t with nodes := t.nodes.filter fun (p, _) => !place.isPrefixOf p }

/-- The tree with a folder at every place on the way to `place` where nothing was. -/
def putFolders (t : FileTree) (place : Place) : FileTree :=
  (List.range place.length).foldl
    (fun t k =>
      let p := place.take (k + 1)
      if (t.node? p).isSome then t else t.put p .folder) t

/-! ## Reading and writing -/

/-- The bytes of the file that a path leads to. -/
def read (t : FileTree) (here : Place) (p : Path) : Except AccessFault Utf8.Bytes :=
  if t.unreadable.contains (routeOf here p) then .error ⟨.denied, p.text⟩
  else
    match t.reach here p.text with
    | .ok (_, .file content) => .ok content.toBytes
    | .ok (_, .folder) => .error ⟨.isAFolder, p.text⟩
    | .ok (_, _) => .ok []
    | .error c => .error ⟨c, p.text⟩

/-- The tree once `b` is the content of the file that a path leads to, which need not be there. -/
def write (t : FileTree) (here : Place) (p : Path) (b : Utf8.Bytes) :
    Except AccessFault FileTree :=
  if t.unreadable.contains (routeOf here p) then .error ⟨.denied, p.text⟩
  else
    match t.lookup true here p.text with
    | .ok ⟨_, some .folder⟩ => .error ⟨.isAFolder, p.text⟩
    | .ok ⟨_, some .pipe⟩ => .ok t
    | .ok ⟨place, _⟩ => .ok (t.put place (.file (.bytes b)))
    | .error c => .error ⟨c, p.text⟩

/-- The tree with a new folder where a path leads. -/
def makeFolder (t : FileTree) (here : Place) (p : Path) : Except AccessFault FileTree :=
  match t.lookup false here p.text with
  | .ok ⟨place, none⟩ => .ok (t.put place .folder)
  | .ok ⟨_, some _⟩ => .error ⟨.alreadyExists, p.text⟩
  | .error c => .error ⟨c, p.text⟩

/-- Makes a folder where there may be one already. -/
def ensureFolder (t : FileTree) (here : Place) (p : Path) : Except AccessFault FileTree :=
  match t.makeFolder here p with
  | .ok t => .ok t
  | .error f => do
    if ← t.ask isFolder here p.text then return t else throw f

/-- Makes a folder and those on the way to it, as far as they are not there. -/
def ensureFolders (t : FileTree) (here : Place) (start : PathStart) :
    (count : Nat) → (names : List Text) → Except AccessFault FileTree
  | 0, names => t.ensureFolder here ⟨start, names⟩
  | count + 1, names =>
    match t.makeFolder here ⟨start, names⟩ with
    | .ok t => .ok t
    | .error f =>
      if f.cause = .notFound ∧ names ≠ [] then do
        let t ← t.ensureFolders here start count names.dropLast
        t.ensureFolder here ⟨start, names⟩
      else t.ensureFolder here ⟨start, names⟩

end FileTree

end InsecureLinks
