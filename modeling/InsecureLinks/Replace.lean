import InsecureLinks.Files.FileTree
import InsecureLinks.Report.Basic

/-!
# Replacing

Turns the insecure links of a report into secure ones, in place.  Only the places in the report
are touched, and only if the link still stands there.  Line breaks, a byte order mark and a missing
final line break stay as they are.

Numbers in a report count from the end when they are not positive: line 0 is the last line and
column -1 the last character.  A line before the first is a fault.
-/

namespace InsecureLinks

/-- Why a file cannot be changed. -/
inductive ReplaceFault
  | access (f : AccessFault)
  | notText (f : Utf8.Fault)
  | noSuchLine
deriving DecidableEq, Repr

/-- The wording of a fault, if it has one. -/
def ReplaceFault.message? : ReplaceFault → Option Text
  | .access f => some f.message
  | .notText f => some f.message
  | .noSuchLine => none

/-- What was changed, or would be. -/
structure Replaced where
  filesChanged : List Text
  replacements : Nat
deriving DecidableEq, Repr

namespace Replace

/-- A position in a text of `length` characters, counted from the end if it is negative. -/
def position (length : Nat) (k : Int) : Nat :=
  if k < 0 then (k + length).toNat else min k.toNat length

/-- The characters of `t` from one position up to another. -/
def slice (t : Text) (first last : Int) : Text :=
  (t.take (position t.length last)).drop (position t.length first)

/-- The line with the link at a column made secure, if it stands there. -/
def secureAt? (line : Text) (column : Int) : Option Text :=
  let after := column + insecure.length
  if slice line column after = insecure then
    some (line.take (position line.length column) ++ secure ++
      line.drop (position line.length after))
  else none

/-- The line with the links at some columns made secure one after another, and how many there
were. -/
def secureColumns (line : Text) : List Int → Text × Nat
  | [] => (line, 0)
  | column :: rest =>
    match secureAt? line column with
    | some changed => let (t, n) := secureColumns changed rest; (t, n + 1)
    | none => secureColumns line rest

/-- The columns from the last to the first, each once.  Going from right to left, a change does
not move what is still to be changed. -/
def ordered (columns : List Int) : List Int :=
  (columns.mergeSort fun a b => decide (b ≤ a)).eraseDups

/-- The place of a line among `count` lines; none if it is after the last. -/
def lineIndex (count : Nat) (lineNumber : Int) : Except ReplaceFault (Option Nat) :=
  let k := lineNumber - 1
  if (count : Int) ≤ k then .ok none
  else if 0 ≤ k then .ok (some k.toNat)
  else if 0 ≤ k + count then .ok (some (k + count).toNat)
  else .error .noSuchLine

/-- The lines with the links at the given columns of the given lines made secure, and how many
there were. -/
def secureLines (pieces : List Text) :
    Groups Int Int → Except ReplaceFault (List Text × Nat)
  | [] => .ok (pieces, 0)
  | (lineNumber, columns) :: rest => do
    match ← lineIndex pieces.length lineNumber with
    | none => secureLines pieces rest
    | some k =>
      let (line, n) := secureColumns (pieces.getD k []) (ordered columns)
      let (pieces, m) ← secureLines (pieces.set k line) rest
      return (pieces, n + m)

/-- The byte order mark that opens a text, and the rest. -/
def cutMark : Text → Text × Text
  | c :: t => if c = Utf8.byteOrderMarkChar then ([c], t) else ([], c :: t)
  | [] => ([], [])

/-- The columns of violations under their lines. -/
def columnsByLine (vs : List Violation) : Groups Int Int :=
  vs.foldl (fun groups v => Groups.add v.lineNumber v.columnOffset groups) []

/-- The text with the links at the places of violations made secure, and how many there were. -/
def inText (content : Text) (vs : List Violation) : Except ReplaceFault (Text × Nat) := do
  let (mark, rest) := cutMark content
  let (pieces, n) ← secureLines (Text.pieces rest) (columnsByLine vs)
  return (mark ++ pieces.flatten, n)

/-- Makes the links in one file secure.  The file is written only if something changed. -/
def inFile (dryRun : Bool) (here : Place) (p : Path) (vs : List Violation) (tree : FileTree) :
    Except ReplaceFault (FileTree × Nat) :=
  match tree.read here p with
  | .error f => .error (.access f)
  | .ok b =>
    match Utf8.decode b with
    | .error f => .error (.notText f)
    | .ok content => do
      let (changed, n) ← inText content vs
      if n = 0 ∨ dryRun then return (tree, n)
      else
        match tree.write here p (Utf8.encode changed) with
        | .ok tree => return (tree, n)
        | .error f => throw (.access f)

/-- Makes the links in the files of some groups secure, one file after another.  After a fault the
files before it stay changed. -/
def inGroups (dryRun : Bool) (here : Place) (tree : FileTree) :
    Groups (Text × Text) Violation → FileTree × Except ReplaceFault Replaced
  | [] => (tree, .ok ⟨[], 0⟩)
  | ((root, filePath), vs) :: rest =>
    let p := (Path.ofText root).join filePath
    match inFile dryRun here p vs tree with
    | .error f => (tree, .error f)
    | .ok (tree, n) =>
      match inGroups dryRun here tree rest with
      | (tree, .error f) => (tree, .error f)
      | (tree, .ok r) =>
        if n = 0 then (tree, .ok r)
        else (tree, .ok ⟨p.text :: r.filesChanged, n + r.replacements⟩)

/-- Makes the links of a report secure. -/
def report (dryRun : Bool) (here : Place) (r : Report) (tree : FileTree) :
    FileTree × Except ReplaceFault Replaced := inGroups dryRun here tree r.byFile

end Replace

end InsecureLinks
