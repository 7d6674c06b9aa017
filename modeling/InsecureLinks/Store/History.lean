import InsecureLinks.Store.Column
import InsecureLinks.Store.Connection

/-!
# The history of scans

A scan is saved as one row for its report and one for each violation.  The rows are put in one
after another and committed at the end, so a save that fails on a violation leaves the rows before
it uncommitted.

Scans are listed from the latest to the earliest; of two with the same time, the one saved first
comes first.
-/

namespace InsecureLinks.Store

/-- The first of some columns whose cell is empty. -/
def firstMissing? (table : Text) (columns : List (String × Cell)) : Option StoreFault :=
  (columns.find? fun (_, c) => c.isNull).map fun (name, _) => .missingValue table name.toList

namespace History

/-! ## Saving -/

/-- The row of a report. -/
def scanRow (id : Text) (r : Report.Draft) : Except StoreFault ScanRow := do
  let filesScanned ← Cell.ofValue 3 r.filesScanned
  let filesSkipped ← Cell.ofValue 4 r.filesSkipped
  let duration ← Cell.ofValue 7 r.duration
  let timestamp ← Cell.ofValue 8 r.timestamp
  let columns :=
    [("files_scanned", filesScanned), ("files_skipped", filesSkipped), ("duration", duration),
      ("timestamp", timestamp)]
  match firstMissing? Tables.scansName columns with
  | some f => .error f
  | none =>
    return {
      id
      roots := r.roots
      filesScanned := filesScanned.asInteger
      filesSkipped := filesSkipped.asInteger
      violationCount := r.violations.length
      passed := r.violations.isEmpty
      duration := duration.asReal
      timestamp := timestamp.asReal }

/-- The row of a violation. -/
def violationRow (number : Nat) (scanId : Text) (v : Report.ViolationDraft) :
    Except StoreFault ViolationRow := do
  let root ← Cell.ofValue 2 v.root
  let filePath ← Cell.ofValue 3 v.filePath
  let line ← Cell.ofValue 4 v.lineNumber
  let column ← Cell.ofValue 5 v.columnOffset
  let lineText ← Cell.ofValue 6 v.lineText
  let columns :=
    [("root", root), ("file_path", filePath), ("line", line), ("col", column),
      ("line_text", lineText)]
  match firstMissing? Tables.violationsName columns with
  | some f => .error f
  | none =>
    return ⟨number, scanId, root.asText, filePath.asText, line.asInteger, column.asInteger,
      lineText.asText⟩

/-- Puts the rows of violations in, up to the first that cannot be. -/
def addViolations (scanId : Text) (table : ViolationTable) :
    List Report.ViolationDraft → ViolationTable × Except StoreFault Unit
  | [] => (table, .ok ())
  | v :: rest =>
    match violationRow (table.last + 1) scanId v with
    | .error f => (table, .error f)
    | .ok row => addViolations scanId ⟨table.rows ++ [row], table.last + 1⟩ rest

/-- Saves a report under an identifier. -/
def save (id : Text) (r : Report.Draft) : Operation Unit := fun c =>
  match (do let rows ← present Tables.scansName c.view.scans
            return (rows, ← scanRow id r)) with
  | .error f => (c, .error f)
  | .ok (rows, row) =>
    let c := c.see { c.view with scans := some (rows ++ [row]) }
    match c.view.violations with
    | none => (c, .error (.noTable Tables.violationsName))
    | some table =>
      let (table, outcome) := addViolations id table r.violations
      let c := c.see { c.view with violations := some table }
      match outcome with
      | .error f => (c, .error f)
      | .ok () => (c.commit, .ok ())

/-! ## Looking up -/

/-- The scan with an identifier and its violations in the order in which they were saved. -/
def get (id : Text) : Operation (Option (ScanRow × List ViolationRow)) :=
  Operation.ask fun t => do
    let scans ← present Tables.scansName t.scans
    match scans.find? fun row => row.id = id with
    | none => return none
    | some row =>
      let table ← present Tables.violationsName t.violations
      return some (row, table.rows.filter fun v => v.scanId = id)

/-- Scans from the latest to the earliest. -/
def latestFirst (rows : List ScanRow) : List ScanRow :=
  rows.mergeSort fun a b => !Cell.lt a.timestamp b.timestamp

/-- The part of a list that begins after `offset` elements and has at most `limit`.  A negative
limit is none, and a negative offset is zero. -/
def page {α : Type} (limit offset : Int) (xs : List α) : List α :=
  let rest := xs.drop offset.toNat
  if limit < 0 then rest else rest.take limit.toNat

/-- A page of the scans from the latest to the earliest. -/
def list (limit offset : Int) : Operation (List ScanRow) :=
  Operation.ask fun t => do
    let rows ← present Tables.scansName t.scans
    let _ ← Cell.ofValue 1 (.int limit)
    let _ ← Cell.ofValue 2 (.int offset)
    return page limit offset (latestFirst rows)

/-- How many scans are listed unless a number is given. -/
def defaultLimit : Int := 50

end History

end InsecureLinks.Store
