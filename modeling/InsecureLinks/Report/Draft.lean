import InsecureLinks.Document.Value
import InsecureLinks.Report.Basic

/-!
# Reports in documents

A report as a document holds it.  A document is read in two steps: `Draft.ofValue` finds the
fields and puts defaults where there are none, without looking at what kind of value a field has;
`Draft.complete` then asks for the kinds that a report needs.  A draft is enough to store a report
and to give it back.
-/

namespace InsecureLinks.Report

/-- Why a document is no report. -/
inductive Fault
  /-- A field that must be there is not. -/
  | missing (field : Text)
  /-- A value is not of the kind that is needed. -/
  | unsuited
  /-- The kind of a diagnostic is none of the known ones. -/
  | unknownKind (x : Value)
  /-- The level of a diagnostic is none of the known ones. -/
  | unknownLevel (x : Value)
deriving Repr

/-- The wording of a fault, if it has one. -/
def Fault.message? : Fault → Option Text
  | .missing field => some field.quoted
  | .unsuited => none
  | .unknownKind x => some (x.literal ++ " is not a valid DiagnosticKind".toList)
  | .unknownLevel x => some (x.literal ++ " is not a valid DiagnosticLevel".toList)

/-- A violation with whatever values its document has. -/
structure ViolationDraft where
  filePath : Value
  lineNumber : Value
  columnOffset : Value
  lineText : Value
  root : Value
deriving Repr

/-- A diagnostic with whatever values its document has, apart from kind and level. -/
structure DiagnosticDraft where
  kind : DiagnosticKind
  level : DiagnosticLevel
  path : Value
  message : Value
  lineNumber : Value
deriving Repr

/-- A report with whatever values its document has. -/
structure Draft where
  violations : List ViolationDraft
  filesScanned : Value
  filesSkipped : Value
  diagnostics : List DiagnosticDraft
  roots : List Value
  duration : Value
  timestamp : Value
deriving Repr

/-! ## From documents -/

/-- The entries of a map. -/
def fieldsOf : Value → Except Fault (List (Value × Value))
  | .map entries => .ok entries
  | _ => .error .unsuited

/-- The value of a field that must be there. -/
def required (key : String) (entries : List (Value × Value)) : Except Fault Value :=
  match Value.get? key entries with
  | some x => .ok x
  | none => .error (.missing key.toList)

/-- The elements of a value that has elements: a text has its characters, a map its keys. -/
def elementsOf : Value → Except Fault (List Value)
  | .list xs => .ok xs
  | .tuple xs => .ok xs
  | .set xs => .ok xs
  | .map entries => .ok (entries.map Prod.fst)
  | .text t => .ok (t.map fun c => .text [c])
  | .bytes b => .ok (b.map fun x => .int x.toNat)
  | _ => .error .unsuited

/-- The violation of a document. -/
def ViolationDraft.ofValue (x : Value) : Except Fault ViolationDraft := do
  let entries ← fieldsOf x
  let filePath ← required "file_path" entries
  let lineNumber ← required "line_number" entries
  let columnOffset ← required "column_offset" entries
  let lineText ← required "line_text" entries
  return ⟨filePath, lineNumber, columnOffset, lineText,
    (Value.get? "root" entries).getD (.text [])⟩

/-- The diagnostic of a document. -/
def DiagnosticDraft.ofValue (x : Value) : Except Fault DiagnosticDraft := do
  let entries ← fieldsOf x
  let kindValue ← required "kind" entries
  let kind ←
    match kindValue with
    | .text t => (DiagnosticKind.ofName? t).elim (.error (.unknownKind kindValue)) .ok
    | _ => .error (.unknownKind kindValue)
  let levelValue ← required "level" entries
  let level ←
    match levelValue with
    | .text t => (DiagnosticLevel.ofName? t).elim (.error (.unknownLevel levelValue)) .ok
    | _ => .error (.unknownLevel levelValue)
  let path ← required "path" entries
  let message ← required "message" entries
  return ⟨kind, level, path, message, (Value.get? "line_number" entries).getD .null⟩

/-- The report of a document.  Every field may be left out, and others are passed over. -/
def Draft.ofValue (x : Value) : Except Fault Draft := do
  let entries ← fieldsOf x
  let field (key : String) (default : Value) : Value := (Value.get? key entries).getD default
  let violations ← (← elementsOf (field "violations" (.list []))).mapM ViolationDraft.ofValue
  let diagnostics ← (← elementsOf (field "diagnostics" (.list []))).mapM DiagnosticDraft.ofValue
  let roots ← elementsOf (field "roots" (.list []))
  return {
    violations
    filesScanned := field "files_scanned" (.int 0)
    filesSkipped := field "files_skipped" (.int 0)
    diagnostics
    roots
    duration := field "duration" (.real Binary64.zero)
    timestamp := field "timestamp" (.real Binary64.zero) }

/-! ## To reports -/

/-- The text that a value is. -/
def textOf : Value → Except Fault Text
  | .text t => .ok t
  | _ => .error .unsuited

/-- The whole number that a value is. -/
def integerOf : Value → Except Fault Int
  | .int i => .ok i
  | _ => .error .unsuited

/-- The measure that a value is. -/
def measureOf : Value → Except Fault Measure
  | .int i => .ok (.whole i)
  | .real x => .ok (.real x)
  | _ => .error .unsuited

/-- The violation of a draft whose values are of the right kinds. -/
def ViolationDraft.complete (d : ViolationDraft) : Except Fault Violation := do
  return ⟨← textOf d.filePath, ← integerOf d.lineNumber, ← integerOf d.columnOffset,
    ← textOf d.lineText, ← textOf d.root⟩

/-- The diagnostic of a draft whose values are of the right kinds. -/
def DiagnosticDraft.complete (d : DiagnosticDraft) : Except Fault Diagnostic := do
  let lineNumber ←
    match d.lineNumber with
    | .null => pure none
    | x => some <$> integerOf x
  return ⟨d.kind, d.level, ← textOf d.path, ← textOf d.message, lineNumber⟩

/-- The report of a draft whose values are of the right kinds. -/
def Draft.complete (d : Draft) : Except Fault Report := do
  return {
    violations := ← d.violations.mapM ViolationDraft.complete
    filesScanned := ← integerOf d.filesScanned
    filesSkipped := ← integerOf d.filesSkipped
    diagnostics := ← d.diagnostics.mapM DiagnosticDraft.complete
    roots := ← d.roots.mapM textOf
    duration := ← measureOf d.duration
    timestamp := ← measureOf d.timestamp }

/-! ## To documents -/

/-- A text key. -/
def keyed (key : String) (x : Value) : Value × Value := (.text key.toList, x)

/-- The document of a violation. -/
def ViolationDraft.toValue (d : ViolationDraft) : Value :=
  .map [keyed "file_path" d.filePath, keyed "line_number" d.lineNumber,
    keyed "column_offset" d.columnOffset, keyed "line_text" d.lineText, keyed "root" d.root]

/-- The document of a diagnostic. -/
def DiagnosticDraft.toValue (d : DiagnosticDraft) : Value :=
  .map [keyed "kind" (.text d.kind.name), keyed "level" (.text d.level.name),
    keyed "path" d.path, keyed "message" d.message, keyed "line_number" d.lineNumber]

/-- The document of a report. -/
def Draft.toValue (d : Draft) : Value :=
  .map [keyed "violations" (.list (d.violations.map ViolationDraft.toValue)),
    keyed "files_scanned" d.filesScanned, keyed "files_skipped" d.filesSkipped,
    keyed "diagnostics" (.list (d.diagnostics.map DiagnosticDraft.toValue)),
    keyed "roots" (.list d.roots), keyed "duration" d.duration,
    keyed "timestamp" d.timestamp]

/-! ## From reports -/

/-- A measure as a value. -/
def measureValue : Measure → Value
  | .whole i => .int i
  | .real x => .real x

/-- An optional line number as a value. -/
def lineValue : Option Int → Value
  | none => .null
  | some n => .int n

/-- The draft of a violation. -/
def ViolationDraft.of (v : Violation) : ViolationDraft :=
  ⟨.text v.filePath, .int v.lineNumber, .int v.columnOffset, .text v.lineText, .text v.root⟩

/-- The draft of a diagnostic. -/
def DiagnosticDraft.of (d : Diagnostic) : DiagnosticDraft :=
  ⟨d.kind, d.level, .text d.path, .text d.message, lineValue d.lineNumber⟩

/-- The draft of a report. -/
def Draft.of (r : Report) : Draft where
  violations := r.violations.map ViolationDraft.of
  filesScanned := .int r.filesScanned
  filesSkipped := .int r.filesSkipped
  diagnostics := r.diagnostics.map DiagnosticDraft.of
  roots := r.roots.map .text
  duration := measureValue r.duration
  timestamp := measureValue r.timestamp

end InsecureLinks.Report
