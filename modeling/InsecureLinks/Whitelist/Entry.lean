import InsecureLinks.Report.Violation
import InsecureLinks.Text.Blank
import InsecureLinks.Text.Quoted
import InsecureLinks.Number.Literal

/-!
# Whitelist entries

An entry allows the insecure links of one file, of one line of it, or of the lines with some
content.  In a whitelist it is written as the path of the file, with `:` and a line number after
it where it is for one line; there is no way to write the content.

Paths are compared as text once they have forward slashes only, no two in a row, and no leading
`./`.
-/

namespace InsecureLinks

/-- What a whitelist allows in one file: everything, unless a line number or the content of a
line is asked for. -/
structure WhitelistEntry where
  filePattern : Text
  lineNumber : Option Int
  lineContent : Option Text
deriving DecidableEq, Repr

namespace WhitelistEntry

/-- Why a line is no entry. -/
inductive Fault
  | notANumber (line : Text)
  | belowOne (line : Text)
  | noPath (line : Text)
  /-- The number has more digits than a number may have, which is no fault of the line alone and
  ends the reading of the whole whitelist. -/
  | tooManyDigits (count : Nat)
deriving DecidableEq, Repr

/-- The wording of a fault. -/
def Fault.message : Fault → Text
  | .notANumber line => "Line number suffix is not a number: ".toList ++ line.quoted
  | .belowOne line => "Line numbers start at 1: ".toList ++ line.quoted
  | .noPath line => "Missing file path: ".toList ++ line.quoted
  | .tooManyDigits count => (Literal.Fault.tooManyDigits count).message

/-! ## Paths -/

/-- `t` with every run of slashes made one slash. -/
def collapseSlashes : Text → Text
  | '/' :: '/' :: t => collapseSlashes ('/' :: t)
  | c :: t => c :: collapseSlashes t
  | [] => []

/-- `t` without the `./` that may open it, however often. -/
def dropHere : Text → Text
  | '.' :: '/' :: t => dropHere t
  | t => t

/-- A path as entries hold it. -/
def normalizePath (path : Text) : Text :=
  dropHere (collapseSlashes (Text.replaceChar '\\' '/' path.strip))

/-! ## Reading -/

/-- The line number that the text after a `:` denotes. -/
def readLineNumber (line number : Text) : Except Fault Int :=
  let digits := number.strip
  if digits.isEmpty || !digits.all Text.isAsciiDigit then .error (.notANumber line)
  else if Literal.maxDigits < digits.length then .error (.tooManyDigits digits.length)
  else
    let n : Int := (Text.value digits : Nat)
    if n < 1 then .error (.belowOne line) else .ok n

/-- The entry for a path that is not normalised yet. -/
def ofPath (line path : Text) (lineNumber : Option Int) : Except Fault WhitelistEntry :=
  let filePattern := normalizePath path
  if filePattern.isEmpty then .error (.noPath line) else .ok ⟨filePattern, lineNumber, none⟩

/-- Reads an entry. -/
def parse (line : Text) : Except Fault WhitelistEntry :=
  let line := line.strip
  match Text.cutLast? ':' line with
  | none => ofPath line line none
  | some (path, number) => do
    let n ← readLineNumber line number
    ofPath line path (some n)

/-! ## Writing -/

/-- An entry as it is written. -/
def text (e : WhitelistEntry) : Text :=
  match e.lineNumber with
  | none => e.filePattern
  | some n => e.filePattern ++ ':' :: Text.integer n

/-- Whether the entry allows everything in its file. -/
def wholeFile (e : WhitelistEntry) : Bool := e.lineNumber.isNone && e.lineContent.isNone

/-! ## Covering -/

/-- Whether the entry's conditions on the line hold of a violation. -/
def matchesLine (e : WhitelistEntry) (v : Violation) : Bool :=
  (match e.lineNumber with
   | none => true
   | some n => n = v.lineNumber) &&
  (match e.lineContent with
   | none => true
   | some t => t = v.lineText.strip)

/-- Whether the entry allows a violation. -/
def covers (e : WhitelistEntry) (v : Violation) : Bool :=
  e.filePattern = v.filePath && e.matchesLine v

end WhitelistEntry

end InsecureLinks
