import InsecureLinks.Text.Basic
import InsecureLinks.Text.Utf8

/-!
# Paths

A path is a list of names, possibly below the top folder.  Reading a path drops empty names and
`.`; it keeps `..`, which may lead elsewhere than to the name before it.  Two slashes at the start
are kept apart from one, three or more are one.
-/

namespace InsecureLinks

/-- Where a path begins. -/
inductive PathStart
  /-- At the current folder. -/
  | here
  /-- At the top folder. -/
  | top
  /-- At the top folder, written with two slashes. -/
  | topTwice
deriving DecidableEq, Repr

/-- Where a path begins that is written with `count` slashes at its start. -/
def PathStart.ofSlashes (count : Nat) : PathStart :=
  match count with
  | 0 => .here
  | 2 => .topTwice
  | _ => .top

/-- A path without empty names and `.`. -/
structure Path where
  start : PathStart
  names : List Text
deriving DecidableEq, Repr

namespace Path

/-- The name that stands for the folder itself. -/
def dot : Text := ['.']

/-- The name that stands for the folder above. -/
def dotDot : Text := ['.', '.']

/-- The names in a text between slashes, leaving out empty ones and `.`. -/
def namesOf (t : Text) : List Text := (Text.fields '/' t).filter fun n => n ≠ [] ∧ n ≠ dot

/-- Where a path that is written `t` begins. -/
def startOf (t : Text) : PathStart := .ofSlashes (t.takeWhile (· = '/')).length

/-- Reads a path. -/
def ofText (t : Text) : Path := ⟨startOf t, namesOf t⟩

/-- Whether the path begins at the top folder. -/
def isAbsolute (p : Path) : Bool := p.start ≠ .here

/-- The path that `q` is when it begins where `p` leads. -/
def append (p q : Path) : Path := if q.isAbsolute then q else ⟨p.start, p.names ++ q.names⟩

/-- The path written `t` that begins where `p` leads. -/
def join (p : Path) (t : Text) : Path := p.append (ofText t)

/-- How the start of a path is written. -/
def startText : PathStart → Text
  | .here => []
  | .top => ['/']
  | .topTwice => ['/', '/']

/-- A path as it is written; the current folder is `.`. -/
def text (p : Path) : Text :=
  match p.start, p.names with
  | .here, [] => dot
  | s, names => startText s ++ Text.join ['/'] names

/-- Whether there is a zero in a name, so that no file or folder can be asked for by the path. -/
def hasZero (p : Path) : Bool := p.names.any fun n => n.contains (Char.ofNat 0)

/-- What is said of a path with a zero in it. -/
def zeroMessage : Text := "embedded null byte".toList

/-- The path without its last name; a path without names is its own parent. -/
def parent (p : Path) : Path := { p with names := p.names.dropLast }

end Path

end InsecureLinks
