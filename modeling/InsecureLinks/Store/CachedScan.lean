import InsecureLinks.Store.Fingerprint
import InsecureLinks.Store.ReportCache

/-!
# Scans with reuse

A scan whose report may be taken from the history file.  The files are found and fingerprinted
first; only if no report is kept under the key is anything scanned, and the new report is then kept
under that key.
-/

namespace InsecureLinks.Store

/-- Why a scan with reuse gives no report. -/
inductive CachedScanFault
  | scan (f : ScanFault)
  | store (f : StoreFault)
  | report (f : Report.Fault)
deriving Repr

namespace CachedScan

/-- What a scan with reuse goes by. -/
structure Request where
  target : Target
  whitelist : Whitelist
  options : ScanOptions
  /-- The history file. -/
  file : Path

/-- The report that is kept under a key. -/
def lookUp (here : Place) (file : Path) (key : Text) (tree : FileTree) :
    FileTree × Except CachedScanFault (Option Report) :=
  match withFile here file (ReportCache.get key) tree with
  | (tree, .error f) => (tree, .error (.store f))
  | (tree, .ok none) => (tree, .ok none)
  | (tree, .ok (some document)) =>
    match Report.Draft.ofValue document >>= Report.Draft.complete with
    | .ok r => (tree, .ok (some r))
    | .error f => (tree, .error (.report f))

/-- Scans the files that were found and keeps the report under a key. -/
def scanAndKeep (here : Place) (q : Request) (clock : Clock) (now : Binary64) (key : Text)
    (found : List SourceFile × List Diagnostic) (tree : FileTree) :
    FileTree × Except CachedScanFault Report :=
  match Scan.files tree here q.target q.whitelist q.options clock now found with
  | .error f => (tree, .error (.scan f))
  | .ok r =>
    match withFile here q.file (ReportCache.put key (Report.Draft.of r).toValue) tree with
    | (tree, .ok ()) => (tree, .ok r)
    | (tree, .error f) => (tree, .error (.store f))

/-- Takes the report from the history file or scans, and tells which. -/
def run (hash : Fingerprint.Hash) (here : Place) (q : Request) (clock : Clock) (now : Binary64)
    (tree : FileTree) : FileTree × Except CachedScanFault (Report × Bool) :=
  match Scan.find tree here q.target with
  | .error f => (tree, .error (.scan (.walk f)))
  | .ok found =>
    let key := Fingerprint.key hash tree here q.target q.whitelist q.options.maxFileSize found.1
    match lookUp here q.file key tree with
    | (tree, .error f) => (tree, .error f)
    | (tree, .ok (some r)) => (tree, .ok (r, true))
    | (tree, .ok none) =>
      let (tree, outcome) := scanAndKeep here q clock now key found tree
      (tree, outcome.map fun r => (r, false))

end CachedScan

end InsecureLinks.Store
