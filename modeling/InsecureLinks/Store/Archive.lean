import InsecureLinks.Document.Json
import InsecureLinks.Store.Tables
import InsecureLinks.Yaml.Document

/-!
# Archives

How the tables of a history file are kept between two runs of the program: as one document, on one
line and with every text in quotes.  The roots of a scan and the reports kept for reuse are JSON texts
in it.
-/

namespace InsecureLinks.Store.Archive

/-! ## Documents as text -/

/-- A character in quotes. -/
def quotedChar (c : Char) : Text :=
  if 0x20 ≤ c.toNat ∧ c.toNat < 0x7F ∧ c ≠ '"' ∧ c ≠ '\\' then [c]
  else '\\' :: 'U' :: Text.hexadecimal 8 c.toNat

/-- A text in quotes. -/
def quoted (t : Text) : Text := '"' :: t.flatMap quotedChar ++ ['"']

mutual

/-- A document as text. -/
def valueText : Value → Text
  | .null => "null".toList
  | .bool b => if b then "true".toList else "false".toList
  | .int i => Text.integer i
  | .real x => "!!float ".toList ++ quoted (Decimal.shortest x)
  | .list xs => '[' :: Text.join ", ".toList (valueTexts xs) ++ [']']
  | .map entries => '\x7b' :: Text.join ", ".toList (entryTexts entries) ++ ['\x7d']
  | x => quoted x.shown

/-- Documents as texts. -/
def valueTexts : List Value → List Text
  | [] => []
  | x :: xs => valueText x :: valueTexts xs

/-- Keys and values as texts. -/
def entryTexts : List (Value × Value) → List Text
  | [] => []
  | (k, x) :: rest => (valueText k ++ ": ".toList ++ valueText x) :: entryTexts rest

end

/-! ## Tables as documents -/

/-- A cell as a document. -/
def cellValue : Cell → Value
  | .null => .null
  | .integer i => .int i
  | .real x => .real x
  | .text t => .text t

/-- The cell that a document is. -/
def cell? : Value → Option Cell
  | .null => some .null
  | .int i => some (.integer i)
  | .real x => some (.real x)
  | .text t => some (.text t)
  | _ => none

/-- The natural number that a document is. -/
def natural? : Value → Option Nat
  | .int i => if 0 ≤ i then some i.toNat else none
  | _ => none

/-- The whole number that a document is. -/
def integer? : Value → Option Int
  | .int i => some i
  | _ => none

/-- A document as a field. -/
def jsonValue (x : Value) : Value := .text (Json.text x)

/-- The document that a field holds. -/
def json? : Value → Option Value
  | .text t => Json.read t
  | _ => none

/-- The elements of a document. -/
def elements? : Value → Option (List Value)
  | .list xs => some xs
  | _ => none

/-- A scan as a document. -/
def scanValue (r : ScanRow) : Value :=
  .list [.text r.id, jsonValue (.list r.roots), cellValue r.filesScanned, cellValue r.filesSkipped,
    .int r.violationCount, .bool r.passed, cellValue r.duration, cellValue r.timestamp]

/-- The scan that a document is. -/
def scan? : Value → Option ScanRow
  | .list [.text id, roots, scanned, skipped, count, .bool passed, duration, timestamp] => do
    return {
      id, passed
      roots := ← elements? (← json? roots)
      filesScanned := ← cell? scanned
      filesSkipped := ← cell? skipped
      violationCount := ← natural? count
      duration := ← cell? duration
      timestamp := ← cell? timestamp }
  | _ => none

/-- A violation as a document. -/
def violationValue (r : ViolationRow) : Value :=
  .list [.int r.id, .text r.scanId, cellValue r.root, cellValue r.filePath, cellValue r.line,
    cellValue r.column, cellValue r.lineText]

/-- The violation that a document is. -/
def violation? : Value → Option ViolationRow
  | .list [id, .text scanId, root, path, line, column, lineText] => do
    return ⟨← natural? id, scanId, ← cell? root, ← cell? path, ← cell? line, ← cell? column,
      ← cell? lineText⟩
  | _ => none

/-- The violations of all scans as a document. -/
def violationsValue (t : ViolationTable) : Value :=
  .list [.int t.last, .list (t.rows.map violationValue)]

/-- The violations of all scans that a document is. -/
def violations? : Value → Option ViolationTable
  | .list [last, .list rows] => do return ⟨← rows.mapM violation?, ← natural? last⟩
  | _ => none

/-- A report kept for reuse as a document. -/
def cacheValue (r : CacheRow) : Value := .list [.text r.key, jsonValue r.report]

/-- The report kept for reuse that a document is. -/
def cache? : Value → Option CacheRow
  | .list [.text key, report] => do return ⟨key, ← json? report⟩
  | _ => none

/-- A table as a document, or nothing if it is missing. -/
def tableValue {α : Type} (f : α → Value) : Option α → Value
  | none => .null
  | some x => f x

/-- The table that a document is. -/
def table? {α : Type} (read : Value → Option α) : Value → Option (Option α)
  | .null => some none
  | x => (read x).map some

/-- The rows of a document. -/
def rows? {α : Type} (read : Value → Option α) : Value → Option (List α)
  | .list xs => xs.mapM read
  | _ => none

/-- Tables as a document. -/
def toValue (t : Tables) : Value :=
  .list [tableValue (fun xs => .list (xs.map .int)) t.versions,
    tableValue (fun xs => .list (xs.map scanValue)) t.scans,
    tableValue violationsValue t.violations,
    tableValue (fun xs => .list (xs.map cacheValue)) t.cache, .int t.changes]

/-- The tables that a document is. -/
def ofValue? : Value → Option Tables
  | .list [versions, scans, violations, cache, changes] => do
    return ⟨← table? (rows? integer?) versions, ← table? (rows? scan?) scans,
      ← table? violations? violations, ← table? (rows? cache?) cache, ← natural? changes⟩
  | _ => none

/-- Tables as text. -/
def text (t : Tables) : Text := valueText (toValue t) ++ ['\n']

/-- The tables that a text holds. -/
def ofText? (t : Text) : Option Tables :=
  match Yaml.read t with
  | .ok x => ofValue? x
  | .error _ => none

end InsecureLinks.Store.Archive
