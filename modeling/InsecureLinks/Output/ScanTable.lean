import InsecureLinks.Document.Timestamp
import InsecureLinks.Output.Console
import InsecureLinks.Store.Tables

/-!
# Tables of scans

The scans of a history file as they are shown: one row for each, with its time in universal time.
-/

namespace InsecureLinks.ScanTable

/-- Why a scan cannot be shown. -/
inductive Fault
  | timestamp (f : TimestampFault)
  /-- Its time is no number, or one of its roots no text. -/
  | unsuited
deriving DecidableEq, Repr

/-- The wording of a fault, if it has one. -/
def Fault.message? : Fault → Option Text
  | .timestamp f => some f.message
  | .unsuited => none

/-- A moment as day and time of day; the year has only the digits that it needs. -/
def momentText (m : Moment) : Text :=
  Text.natural m.date.year ++ '-' :: Moment.twoDigits m.date.month ++ '-' ::
    Moment.twoDigits m.date.day ++ ' ' :: m.clockText

/-- When a scan was. -/
def when? (timestamp : Store.Cell) : Except Fault Text :=
  let time : Option Binary64 :=
    match timestamp with
    | .real x => some x
    | .integer i => some (Binary64.ofInt i)
    | _ => none
  match time with
  | none => .error .unsuited
  | some t =>
    match Timestamp.toMoment t with
    | .ok m => .ok (momentText m)
    | .error f => .error (.timestamp f)

/-- The roots of a scan in one text. -/
def rootsText (roots : List Value) : Except Fault Text := do
  let texts ← roots.mapM fun
    | .text t => .ok t
    | _ => .error .unsuited
  return Text.join ", ".toList texts

/-- A cell as it is shown. -/
def cellText : Store.Cell → Text
  | .null => Value.shown .null
  | .integer i => Text.integer i
  | .real x => Decimal.shortest x
  | .text t => t

/-- The mark of a scan that has passed or failed. -/
def resultText (passed : Bool) : Text :=
  if passed then "[green]passed[/green]".toList else "[red]failed[/red]".toList

/-- The row of a scan. -/
def row (r : Store.ScanRow) : Except Fault (List Text) := do
  let time ← when? r.timestamp
  let roots ← rootsText r.roots
  return [r.id, time, Markup.escape roots, cellText r.filesScanned, Text.natural r.violationCount,
    resultText r.passed]

/-- The table of some scans. -/
def table (rows : List Store.ScanRow) : Except Fault Table := do
  return {
    title := "Scan history".toList
    columns :=
      ["ID".toList, "When".toList, "Roots".toList, "Files".toList, "Violations".toList,
        "Result".toList]
    rows := ← rows.mapM row }

end InsecureLinks.ScanTable
