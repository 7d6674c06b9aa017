import InsecureLinks.Scan.SourceText
import InsecureLinks.Scan.Target
import InsecureLinks.Scan.Walk
import InsecureLinks.Whitelist.Basic

/-!
# Scanning

A scan walks the roots, reads each file, and reports the violations that the whitelist does not
cover.  Files are scanned in line, one after another, or in parallel; either way each file has a
slot of its own, and the report is put together from the slots in the order of the files, so the
order in which they are filled does not matter.

A scan may have a timeout.  In line, the clock is read before each file.  In parallel it is read
once, and what is left of the timeout is waited for; the files that the pool has not scanned by then
are left out.  A wait of more nanoseconds than a machine word holds is refused, unless the pool has
scanned all files before.

A scan is taken to have the memory and the threads that it asks for.
-/

namespace InsecureLinks

/-- How a scan is done, apart from what is scanned. -/
structure ScanOptions where
  /-- How many files are scanned at a time; not positive or not given means as many as there are
  processors. -/
  workers : Option Int
  maxFileSize : Int
  /-- Seconds. -/
  timeout : Option Binary64
  /-- How many processors there are; zero if that is not known. -/
  processors : Nat
deriving DecidableEq, Repr

/-- How time goes on during a scan, and how far the pool of a parallel scan gets in it. -/
structure Clock where
  /-- Successive readings, in seconds. -/
  readings : Nat → Binary64
  /-- Whether the pool has scanned all files before it is waited for. -/
  poolIsAhead : Bool
  /-- Whether the pool has scanned the file at a position when it has been waited for so many
  seconds. -/
  isScannedAfter : Binary64 → Nat → Bool

instance : CoeFun Clock fun _ => Nat → Binary64 := ⟨Clock.readings⟩

namespace Clock

/-- The clock that begins at zero and goes on by `step` from each reading to the next, with a pool
that has to be waited for and then scans all files at once. -/
def stepping (step : Binary64) : Clock :=
  ⟨fun k => step.timesNat k, false, fun seconds _ => seconds.isPositive⟩

/-- The time from the first reading to a later one. -/
def elapsed (clock : Clock) (k : Nat) : Binary64 := (clock k).sub (clock 0)

end Clock

/-- A scan that did not end in time, with what it had found. -/
structure ScanTimeout where
  timeout : Binary64
  report : Report
deriving DecidableEq, Repr

/-- The wording of a timeout. -/
def ScanTimeout.message (t : ScanTimeout) : Text :=
  "Scan timed out after ".toList ++ Decimal.general 6 t.timeout ++ "s (".toList ++
    Text.integer t.report.filesScanned ++ " files scanned before abort)".toList

/-- Why a scan gives no report. -/
inductive ScanFault
  | walk (f : WalkFault)
  | limit (f : LimitFault)
  | timedOut (t : ScanTimeout)
  /-- What is left of the timeout is too long to be waited for. -/
  | waitTooLong
deriving DecidableEq, Repr

/-- The wording of a fault. -/
def ScanFault.message : ScanFault → Text
  | .walk f => f.message
  | .limit f => f.message
  | .timedOut t => t.message
  | .waitTooLong => "timestamp too large to convert to C _PyTime_t".toList

namespace Scan

/-- What scanning one file gives: its violations, or the diagnostic for skipping it. -/
inductive Outcome
  | scanned (violations : List Violation)
  | skipped (d : Diagnostic)
deriving DecidableEq, Repr

/-- Scans one file. -/
def scanFile (tree : FileTree) (here : Place) (index : Whitelist.Index) (maxFileSize : Int)
    (f : SourceFile) : Outcome :=
  match SourceText.read tree here maxFileSize f.path with
  | .ok t => .scanned (index.filter (Violation.ofText f.root f.relativePath t))
  | .error s => .skipped (s.diagnostic f.relativePath)

/-! ## Slots -/

/-- One slot for each file, empty until the file has been scanned. -/
abbrev Slots := List (Option Outcome)

/-- The slots of `files` once those at the positions `done` have been scanned, in that order. -/
def fill (scan : SourceFile → Outcome) (files : List SourceFile) (done : List Nat) : Slots :=
  done.foldl (fun slots k => slots.set k (files[k]?.map scan)) (files.map fun _ => none)

/-- The violations in the slots. -/
def violationsOf (slots : Slots) : List Violation :=
  slots.flatMap fun
    | some (.scanned vs) => vs
    | _ => []

/-- The diagnostics in the slots. -/
def diagnosticsOf (slots : Slots) : List Diagnostic :=
  slots.filterMap fun
    | some (.skipped d) => some d
    | _ => none

/-- How many files were scanned. -/
def scannedCount (slots : Slots) : Nat :=
  slots.countP fun
    | some (.scanned _) => true
    | _ => false

/-- Puts a report together. -/
def assemble (slots : Slots) (diagnostics : List Diagnostic) (roots : List Text)
    (duration timestamp : Binary64) : Report where
  violations := violationsOf slots
  filesScanned := scannedCount slots
  filesSkipped := (diagnosticsOf slots).length
  diagnostics := diagnostics ++ diagnosticsOf slots
  roots
  duration := .real duration
  timestamp := .real timestamp

/-! ## Time -/

/-- Which files are scanned, whether that was cut short, and how often the clock was read. -/
structure Schedule where
  done : List Nat
  timedOut : Bool
  readings : Nat
deriving DecidableEq, Repr

/-- How many of the `count` files from number `k` on are scanned in line before the timeout. -/
def inTime (clock : Clock) (timeout : Binary64) : (count k : Nat) → Nat
  | 0, k => k
  | count + 1, k =>
    if timeout.lt (clock.elapsed (k + 1)) then k else inTime clock timeout count (k + 1)

/-- The schedule of scanning `count` files in line. -/
def inlineSchedule (clock : Clock) (timeout : Option Binary64) (count : Nat) : Schedule :=
  match timeout with
  | none => ⟨List.range count, false, 1⟩
  | some limit =>
    let k := inTime clock limit count 0
    if k < count then ⟨List.range k, true, k + 2⟩ else ⟨List.range count, false, count + 1⟩

/-- Whether there are more nanoseconds in so many seconds than a machine word holds. -/
def isTooLong (seconds : Binary64) : Bool :=
  seconds.isPositive && !(seconds.timesNat 1000000000).lt (Binary64.ofInt 0x8000000000000000)

/-- For how long a pool is waited for when so many seconds are left. -/
def waitOf (left : Binary64) : Binary64 := if left.isPositive then left else Binary64.zero

/-- Which of `count` files a pool has scanned when it has been waited for. -/
def poolDone (clock : Clock) (limit : Binary64) (count : Nat) : List Nat :=
  let left := limit.sub (clock.elapsed 1)
  if clock.poolIsAhead then List.range count
  else if isTooLong left then []
  else (List.range count).filter fun k => clock.isScannedAfter (waitOf left) k

/-- The schedule of scanning `count` files in parallel. -/
def parallelSchedule (clock : Clock) (timeout : Option Binary64) (count : Nat) : Schedule :=
  match timeout with
  | none => ⟨List.range count, false, 1⟩
  | some limit =>
    let done := poolDone clock limit count
    ⟨done, done.length < count, 2⟩

/-- How many files are scanned at a time. -/
def workerCount (o : ScanOptions) : Int :=
  let byDefault : Int := if o.processors = 0 then 1 else o.processors
  match o.workers with
  | some w => if 0 < w then w else byDefault
  | none => byDefault

/-- The schedule of a scan. -/
def schedule (o : ScanOptions) (clock : Clock) (count : Nat) : Schedule :=
  if workerCount o = 1 ∨ count ≤ 1 then inlineSchedule clock o.timeout count
  else parallelSchedule clock o.timeout count

/-- Whether `count` files are scanned in parallel and what is left of the timeout is too long to be
waited for. -/
def waitIsRefused (o : ScanOptions) (clock : Clock) (count : Nat) : Bool :=
  match o.timeout with
  | none => false
  | some limit =>
    workerCount o ≠ 1 && 1 < count && !clock.poolIsAhead && isTooLong (limit.sub (clock.elapsed 1))

/-! ## A scan -/

/-- What keeps the files at the positions `done` from being read, if one of them can be opened. -/
def limitFault? (tree : FileTree) (here : Place) (o : ScanOptions) (files : List SourceFile)
    (done : List Nat) : Option LimitFault :=
  match SourceText.limitFault? o.maxFileSize with
  | none => none
  | some f =>
    if (done.filterMap fun k => files[k]?).any fun x => SourceText.canOpen tree here x.path then
      some f
    else none

/-- Scans files that have been found already by a schedule, with what was passed over in finding
them. -/
def carryOut (tree : FileTree) (here : Place) (target : Target) (whitelist : Whitelist)
    (o : ScanOptions) (clock : Clock) (now : Binary64)
    (found : List SourceFile × List Diagnostic) (plan : Schedule) : Except ScanFault Report :=
  match limitFault? tree here o found.1 plan.done with
  | some f => .error (.limit f)
  | none =>
    let slots := fill (scanFile tree here whitelist.index o.maxFileSize) found.1 plan.done
    let report := assemble slots (whitelist.diagnostics ++ found.2) target.roots
      (clock.elapsed plan.readings) now
    if plan.timedOut then
      let limit := o.timeout.getD Binary64.zero
      .error (.timedOut ⟨if limit.isZero then Binary64.zero else limit, report⟩)
    else .ok report

/-- Scans files that have been found already. -/
def files (tree : FileTree) (here : Place) (target : Target) (whitelist : Whitelist)
    (o : ScanOptions) (clock : Clock) (now : Binary64)
    (found : List SourceFile × List Diagnostic) : Except ScanFault Report :=
  if waitIsRefused o clock found.1.length then .error .waitTooLong
  else carryOut tree here target whitelist o clock now found (schedule o clock found.1.length)

/-- The files of a target. -/
def find (tree : FileTree) (here : Place) (target : Target) :
    Except WalkFault (List SourceFile × List Diagnostic) :=
  Walk.roots tree here target.roots target.included target.effectiveExcludes

/-- Scans a target. -/
def run (tree : FileTree) (here : Place) (target : Target) (whitelist : Whitelist)
    (o : ScanOptions) (clock : Clock) (now : Binary64) : Except ScanFault Report :=
  match find tree here target with
  | .error f => .error (.walk f)
  | .ok found => files tree here target whitelist o clock now found

end Scan

end InsecureLinks
