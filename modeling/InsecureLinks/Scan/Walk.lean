import InsecureLinks.Files.FileTree
import InsecureLinks.Glob.Match
import InsecureLinks.Report.Diagnostic

/-!
# Walking the roots

The files beneath the roots that the patterns select.  Each root is walked depth first, the names
in a folder in order.  Links are followed, but no folder is entered twice during the walk of one
root, so that a link to a folder above does not go on forever.

A folder is passed over without being listed when a pattern excludes all that is in it.  What
cannot be listed or looked at is recorded and passed over.

A walk is taken to have the stack that it needs, however deep the folders are.  And a folder is
listed unless listing it is denied, however long its path has become: a file in it whose path is too
long to be looked up is met all the same.
-/

namespace InsecureLinks

/-- A file to be scanned: its root, and its path from there with slashes. -/
structure SourceFile where
  root : Text
  relativePath : Text
deriving DecidableEq, Repr

namespace SourceFile

/-- The path of a file. -/
def path (f : SourceFile) : Path := (Path.ofText f.root).join f.relativePath

end SourceFile

/-- Why the roots cannot be walked. -/
inductive WalkFault
  | noSuchRoot (root : Text)
  | rootIsNoFolder (root : Text)
  | access (f : AccessFault)
  | pattern (e : Glob.Error)
deriving DecidableEq, Repr

/-- The wording of a fault. -/
def WalkFault.message : WalkFault → Text
  | .noSuchRoot root => "Scan root ".toList ++ root.quoted ++ " does not exist".toList
  | .rootIsNoFolder root => "Scan root ".toList ++ root.quoted ++ " is not a directory".toList
  | .access f => f.message
  | .pattern e => e.message

namespace Walk

/-- What a walk of one root goes by. -/
structure Plan where
  tree : FileTree
  /-- The root as it is written in the files' paths. -/
  root : Text
  /-- The route of the root. -/
  route : Route
  included : List Text
  excluded : List Text
  /-- The patterns of folders that are passed over. -/
  pruned : List (List Glob.Token)

/-- What a walk has found. -/
structure State where
  visited : List Place
  files : List SourceFile
  diagnostics : List Diagnostic

/-- The path from the root through some names. -/
def relative (names : List Text) : Text := Text.join ['/'] names

/-- Records something that is passed over. -/
def State.warn (s : State) (names : List Text) (message : Text) : State :=
  let path := if names.isEmpty then Path.dot else relative names
  { s with diagnostics := s.diagnostics ++ [Diagnostic.unreadable path message] }

/-- Whether the patterns select a file. -/
def selects (plan : Plan) (path : Text) : Except Glob.Error Bool := do
  let isIncluded ←
    if plan.included.isEmpty then pure true else Glob.matchesAny plan.included path
  if isIncluded then return !(← Glob.matchesAny plan.excluded path) else return false

/-- The state once a file has been met. -/
def meetFile (plan : Plan) (names : List Text) (s : State) : Except Glob.Error State := do
  if ← selects plan (relative names) then
    return { s with files := s.files ++ [⟨plan.root, relative names⟩] }
  else return s

/-- Whether a folder is passed over. -/
def isPruned (plan : Plan) (names : List Text) : Bool :=
  plan.pruned.any fun ts => Glob.accepts ts (relative names)

/-- The names in a folder that the walk came to through `names`; none if it cannot be listed. -/
def list? (plan : Plan) (place : Place) (names : List Text) : Option (List Text) :=
  if plan.tree.unlistable.contains (FileTree.routeFrom plan.route names) then none
  else some (plan.tree.names place)

/-- What is behind a name in a folder: a place and what is there, links followed; nothing if it
is a link that leads nowhere. -/
def behind (tree : FileTree) (place : Place) (name : Text) :
    Except Cause (Option (Place × Node)) :=
  match tree.walk true FileTree.maxLinks place [name] with
  | .ok ⟨p, some node⟩ => .ok (some (p, node))
  | .ok ⟨_, none⟩ => .ok none
  | .error .notFound => .ok none
  | .error c => .error c

/-- Whether a name in a folder is a link. -/
def isLink (tree : FileTree) (place : Place) (name : Text) : Bool :=
  match tree.node? (place ++ [name]) with
  | some (.link _) => true
  | _ => false

/-- The state once the folder at `place`, to which `names` lead from the root, has been walked.
Every folder on the way there has been entered, so `fuel` is enough if it is the number of
folders. -/
def folder (plan : Plan) : (fuel : Nat) → Place → (names : List Text) → State →
    Except Glob.Error State
  | 0, _, _, s => .ok s
  | fuel + 1, place, names, s =>
    if s.visited.contains place then .ok s
    else
      let s := { s with visited := place :: s.visited }
      match list? plan place names with
      | none =>
        let reason := "cannot list directory (".toList ++ Cause.denied.message ++ [')']
        .ok (s.warn names reason)
      | some entries =>
        entries.foldlM
          (fun s name =>
            let names := names ++ [name]
            match behind plan.tree place name with
            | .error c => .ok (s.warn names c.message)
            | .ok none => .ok (s.warn names "dangling symbolic link".toList)
            | .ok (some (p, .folder)) =>
              if isPruned plan names then .ok s else folder plan fuel p names s
            | .ok (some (_, .file _)) => meetFile plan names s
            | .ok (some _) =>
              if isLink plan.tree place name then
                .ok (s.warn names "dangling symbolic link".toList)
              else .ok s)
          s

/-- Walks one root. -/
def root (tree : FileTree) (here : Place) (included excluded : List Text) (written : Text)
    (s : State) : Except WalkFault State :=
  match tree.ask (fun _ => true) here (Path.ofText written).text with
  | .error f => .error (.access f)
  | .ok false => .error (.noSuchRoot written)
  | .ok true =>
    match tree.reach here (Path.ofText written).text with
    | .ok (place, .folder) =>
      match Glob.subtrees excluded with
      | .error e => .error (.pattern e)
      | .ok pruned =>
        let path := Path.ofText written
        let plan : Plan :=
          ⟨tree, path.text, FileTree.routeOf here path, included, excluded, pruned⟩
        match folder plan (tree.folders.length + 1) place [] { s with visited := [] } with
        | .ok s => .ok s
        | .error e => .error (.pattern e)
    | _ => .error (.rootIsNoFolder written)

/-- The files beneath the roots that the patterns select, and what was passed over. -/
def roots (tree : FileTree) (here : Place) (roots included excluded : List Text) :
    Except WalkFault (List SourceFile × List Diagnostic) := do
  let s ← roots.foldlM (fun s r => root tree here included excluded r s) ⟨[], [], []⟩
  return (s.files, s.diagnostics)

end Walk

end InsecureLinks
