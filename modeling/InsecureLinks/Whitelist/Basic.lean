import InsecureLinks.Report.Basic
import InsecureLinks.Whitelist.Entry

/-!
# Whitelists

A whitelist is a list of entries with the name of where it comes from and a diagnostic for each
line that is no entry.  It is read line by line, passing over blank lines and lines that begin
with `#`.

An `Index` holds the entries by path, so that a violation is compared only with the entries for
its own file.
-/

namespace InsecureLinks

/-- Entries, where they come from, and what could not be read there. -/
structure Whitelist where
  entries : List WhitelistEntry
  source : Text
  diagnostics : List Diagnostic
deriving DecidableEq, Repr

namespace Whitelist

/-- The whitelist that allows nothing. -/
def empty : Whitelist := ⟨[], [], []⟩

/-- The whitelist with more entries at its end. -/
def withEntries (w : Whitelist) (more : List WhitelistEntry) : Whitelist :=
  { w with entries := w.entries ++ more }

/-! ## Reading -/

/-- Whether a line without the blanks around it holds no entry. -/
def isPassedOver (line : Text) : Bool := line.isEmpty || line.head? = some '#'

/-- Adds the outcome of the line with number `lineNumber` to a whitelist.  Only a number with too
many digits ends the reading. -/
def addLine (w : Whitelist) (lineNumber : Nat) (raw : Text) :
    Except WhitelistEntry.Fault Whitelist :=
  let line := raw.strip
  if isPassedOver line then .ok w
  else
    match WhitelistEntry.parse line with
    | .ok e => .ok { w with entries := w.entries ++ [e] }
    | .error (.tooManyDigits count) => .error (.tooManyDigits count)
    | .error f =>
      let d := Diagnostic.malformedEntry w.source f.message lineNumber
      .ok { w with diagnostics := w.diagnostics ++ [d] }

/-- Adds lines to a whitelist, the first of which has number `first`. -/
def addLines (w : Whitelist) : (first : Nat) → List Text → Except WhitelistEntry.Fault Whitelist
  | _, [] => .ok w
  | first, line :: rest => do
    let w ← addLine w first line
    addLines w (first + 1) rest

/-- Reads the text of a whitelist. -/
def ofText (source content : Text) : Except WhitelistEntry.Fault Whitelist :=
  addLines ⟨[], source, []⟩ 1 (Text.wideLines content)

/-! ## Covering -/

/-- Whether some entry allows a violation. -/
def covers (w : Whitelist) (v : Violation) : Bool := w.entries.any (·.covers v)

/-- Entries by the path that they are for. -/
abbrev Index := Groups Text WhitelistEntry

/-- The index of a whitelist. -/
def index (w : Whitelist) : Index := Groups.of WhitelistEntry.filePattern w.entries

/-- Whether an entry of the index allows a violation. -/
def Index.covers (index : Index) (v : Violation) : Bool :=
  (Groups.get v.filePath index).any (·.matchesLine v)

/-- The violations that no entry of the index allows. -/
def Index.filter (index : Index) (vs : List Violation) : List Violation :=
  if index.isEmpty then vs else vs.filter fun v => !Index.covers index v

end Whitelist

end InsecureLinks
