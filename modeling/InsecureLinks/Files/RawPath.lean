import InsecureLinks.Files.Path
import InsecureLinks.Text.CodePoint

/-!
# Paths of code points

How paths are put together that may have surrogates in them.  Reading and writing them is as for
`Path`, code point by code point.
-/

namespace InsecureLinks.RawPath

/-- What stands between two names. -/
def slash : CodePoint := CodePoint.ofChar '/'

/-- The name that stands for the folder itself. -/
def dot : RawText := RawText.ofText Path.dot

/-- The names in a raw text between slashes, leaving out empty ones and `.`. -/
def namesOf (t : RawText) : List RawText := (Text.fields slash t).filter fun n => n ≠ [] ∧ n ≠ dot

/-- Where a path that is written `t` begins. -/
def startOf (t : RawText) : PathStart := .ofSlashes (t.takeWhile (· = slash)).length

/-- A path as it is written; the current folder is `.`. -/
def written (start : PathStart) (names : List RawText) : RawText :=
  match start, names with
  | .here, [] => dot
  | s, names => RawText.ofText (Path.startText s) ++ Text.join [slash] names

/-- The path written `filePath` that begins where the path written `root` leads, as it is
written. -/
def joined (root filePath : RawText) : RawText :=
  match startOf filePath with
  | .here => written (startOf root) (namesOf root ++ namesOf filePath)
  | start => written start (namesOf filePath)

end InsecureLinks.RawPath
