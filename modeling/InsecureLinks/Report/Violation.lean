import InsecureLinks.Number.Numeral
import InsecureLinks.Text.LineBreak
import InsecureLinks.Text.Occurrence

/-!
# Violations

A violation is one place at which a file refers to a resource without transport security.
-/

namespace InsecureLinks

/-- The text that must not occur. -/
def insecure : Text := ['h', 't', 't', 'p', ':', '/', '/']

/-- The text that should stand in its place. -/
def secure : Text := ['h', 't', 't', 'p', 's', ':', '/', '/']

/-- An occurrence of `insecure` in a file.  Lines are counted from 1 and columns from 0; the file
is named relative to the root under which it was found. -/
structure Violation where
  filePath : Text
  lineNumber : Int
  columnOffset : Int
  lineText : Text
  root : Text
deriving DecidableEq, Repr

namespace Violation

/-- The column as it is shown, counted from 1. -/
def column (v : Violation) : Int := v.columnOffset + 1

/-- File, line and column, both counted from 1. -/
def location (v : Violation) : Except Numeral.Fault Text := do
  return v.filePath ++ ':' :: (← Numeral.write v.lineNumber) ++ ':' :: (← Numeral.write v.column)

/-- The root and the file, which together say where to find it. -/
def key (v : Violation) : Text × Text := (v.root, v.filePath)

/-- The violations of one line. -/
def ofLine (root filePath : Text) (lineNumber : Nat) (line : Text) : List Violation :=
  (Text.occurrences insecure line).map fun (column : Nat) =>
    ⟨filePath, lineNumber, (column : Nat), line, root⟩

/-- The violations of the lines of a file, the first of which has number `first`. -/
def ofLines (root filePath : Text) : (first : Nat) → List Text → List Violation
  | _, [] => []
  | first, line :: rest =>
    ofLine root filePath first line ++ ofLines root filePath (first + 1) rest

/-- The violations of a file's text, by line and column. -/
def ofText (root filePath : Text) (content : Text) : List Violation :=
  ofLines root filePath 1 (Text.lines content)

end Violation

end InsecureLinks
