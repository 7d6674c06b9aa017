import InsecureLinks.Report.Draft

/-!
# Tables

What a history file holds: the version of its layout, the scans, the violations of the scans, and
the reports that are kept for reuse.  Each table may be missing, as after an interrupted first
use.  Rows stand in the order in which they were put in.
-/

namespace InsecureLinks.Store

/-- A field of a row. -/
inductive Cell
  | null
  | integer (i : Int)
  | real (x : Binary64)
  | text (t : Text)
deriving DecidableEq, Repr

/-- A scan. -/
structure ScanRow where
  id : Text
  roots : List Value
  filesScanned : Cell
  filesSkipped : Cell
  violationCount : Nat
  passed : Bool
  duration : Cell
  timestamp : Cell
deriving Repr

/-- A violation of a scan. -/
structure ViolationRow where
  id : Nat
  scanId : Text
  root : Cell
  filePath : Cell
  line : Cell
  column : Cell
  lineText : Cell
deriving Repr

/-- The violations of all scans, with the last number given to one. -/
structure ViolationTable where
  rows : List ViolationRow
  last : Nat
deriving Repr

/-- A report kept for reuse, as a document. -/
structure CacheRow where
  key : Text
  report : Value
deriving Repr

/-- The tables of a history file, with the number of times that it was written. -/
structure Tables where
  versions : Option (List Int)
  scans : Option (List ScanRow)
  violations : Option ViolationTable
  cache : Option (List CacheRow)
  changes : Nat
deriving Repr

namespace Tables

/-- A file without tables. -/
def blank : Tables := ⟨none, none, none, none, 0⟩

/-- The name of the table of versions. -/
def versionsName : Text := "schema_version".toList

/-- The name of the table of scans. -/
def scansName : Text := "scan_reports".toList

/-- The name of the table of violations. -/
def violationsName : Text := "scan_violations".toList

/-- The name of the table of reports kept for reuse. -/
def cacheName : Text := "report_cache".toList

/-- The names of the tables that are there, in alphabetical order. -/
def names (t : Tables) : List Text :=
  (if t.cache.isSome then [cacheName] else []) ++ (if t.scans.isSome then [scansName] else []) ++
    (if t.violations.isSome then [violationsName] else []) ++
    (if t.versions.isSome then [versionsName] else [])

end Tables

/-- The bytes that every history file begins with. -/
def magic : Utf8.Bytes := Utf8.encode "SQLite format 3".toList ++ [0]

/-- The bytes of a history file as far as they matter to a reader of files: how they begin, and
that they differ from one writing to the next. -/
def Tables.bytes (t : Tables) : Utf8.Bytes := magic ++ Utf8.encode (Text.natural t.changes)

end InsecureLinks.Store
