import Mathlib
import InsecureLinks.Store.History
import InsecureLinks.Store.ReportCache

/-!
# Calls that fail

Saving a report, keeping one for reuse and forgetting those that are kept, in any order on one
connection, where each call may fail (`Runs`).  A save puts in the row of its report, then the rows
of its violations one by one, and commits at the end.  Nothing takes back what a save that fails on
the way has put in, and the next call that succeeds commits it with its own changes.

So the tables are what the calls that succeeded would have left on their own exactly if no save
before the last of them failed after the row of its report (`committed_eq_alone_iff`).
-/

namespace InsecureLinks.Store

/-! ## Calls -/

/-- A call that changes the tables. -/
inductive Call
  | save (id : Text) (r : Report.Draft)
  | put (key : Text) (report : Value)
  | clear

namespace Call

/-- What a call does. -/
def operation : Call → Operation Unit
  | save id r => History.save id r
  | put key report => ReportCache.put key report
  | clear => ReportCache.clear

/-- The row that a save begins with, if it can be made. -/
def row? : Call → Option ScanRow
  | save id r => (History.scanRow id r).toOption
  | _ => none

/-- Whether a call puts in the row of a report, even if it fails later on. -/
def StoresRow (t : Tables) (call : Call) : Prop :=
  t.scans.isSome = true ∧ call.row?.isSome = true

instance (t : Tables) (call : Call) : Decidable (call.StoresRow t) :=
  inferInstanceAs (Decidable (_ ∧ _))

/-- The violations once a call has put in as many of its own as it can. -/
def addTo (table : ViolationTable) : Call → ViolationTable
  | save id r => (History.addViolations id table r.violations).1
  | _ => table

/-- The reports kept for reuse once a call has put one in or taken all out. -/
def keepIn (rows : List CacheRow) : Call → List CacheRow
  | put key report => ReportCache.insert key report rows
  | clear => []
  | save _ _ => rows

/-- What a call makes of the tables that it sees, whether it succeeds or fails. -/
def leave (t : Tables) (call : Call) : Tables :=
  { t with
    scans := t.scans.map (· ++ call.row?.toList)
    violations := if call.StoresRow t then t.violations.map (addTo · call) else t.violations
    cache := t.cache.map (keepIn · call) }

/-- How a call ends.  It matters which tables there are, but not what is in them. -/
def outcome (t : Tables) : Call → Except StoreFault Unit
  | save id r =>
    if t.scans.isSome then do
      let _ ← History.scanRow id r
      if t.violations.isSome then (History.addViolations id ⟨[], 0⟩ r.violations).2
      else .error (.noTable Tables.violationsName)
    else .error (.noTable Tables.scansName)
  | put _ _ | clear => if t.cache.isSome then .ok () else .error (.noTable Tables.cacheName)

/-! ## One call -/

theorem violationRow_number (n m : ℕ) (scanId : Text) (v : Report.ViolationDraft) :
    History.violationRow n scanId v =
      (History.violationRow m scanId v).map fun row => { row with id := n } := by
  simp only [History.violationRow, bind, Except.bind]
  rcases Cell.ofValue 2 v.root with f | root
  · rfl
  rcases Cell.ofValue 3 v.filePath with f | filePath
  · rfl
  rcases Cell.ofValue 4 v.lineNumber with f | line
  · rfl
  rcases Cell.ofValue 5 v.columnOffset with f | column
  · rfl
  rcases Cell.ofValue 6 v.lineText with f | lineText
  · rfl
  dsimp only
  split
  · rfl
  · rfl

theorem outcome_addViolations (scanId : Text) (table table' : ViolationTable)
    (vs : List Report.ViolationDraft) :
    (History.addViolations scanId table vs).2 = (History.addViolations scanId table' vs).2 := by
  induction vs generalizing table table' with
  | nil => rfl
  | cons v vs ih =>
    rw [History.addViolations, History.addViolations,
      violationRow_number (table.last + 1) (table'.last + 1)]
    rcases History.violationRow (table'.last + 1) scanId v with f | row
    · rfl
    · exact ih _ _

section Step

variable {call : Call} {c c' : Connection} {t : Tables}

theorem leave_of_not_storesRow (h : ¬call.StoresRow t) :
    call.leave t = { t with cache := t.cache.map (keepIn · call) } := by
  have hscans : t.scans.map (· ++ call.row?.toList) = t.scans := by
    rcases hrows : t.scans with _ | rows
    · rfl
    · rcases hrow : call.row? with _ | row
      · simp
      · exact absurd ⟨by rw [hrows]; rfl, by rw [hrow]; rfl⟩ h
  rw [leave, hscans, if_neg h]

theorem not_storesRow (h : call.row? = none) : ¬call.StoresRow t := by
  rw [StoresRow, h]
  exact fun h => by cases h.2

/-- A call that fails leaves the reports kept for reuse. -/
theorem keepIn_of_error {f : StoreFault} (h : call.outcome t = .error f) :
    t.cache.map (keepIn · call) = t.cache := by
  cases call with
  | save id r =>
    rcases t.cache with _ | rows
    · rfl
    · rfl
  | put key report | clear =>
    rcases hcache : t.cache with _ | rows
    · rfl
    · rw [outcome, hcache] at h
      cases h

/-- A call that fails before the row of a report is in leaves everything as it was. -/
theorem leave_of_error {f : StoreFault} (h : call.outcome t = .error f)
    (hrow : ¬call.StoresRow t) : call.leave t = t := by
  rw [leave_of_not_storesRow hrow, keepIn_of_error h]

/-- What a connection is after a call that ends in some way: what the call leaves is committed if it
succeeds, and otherwise not, but still seen. -/
def next (call : Call) (c : Connection) : Except StoreFault Unit → Connection
  | .ok () => (c.see (call.leave c.view)).commit
  | .error _ => if call.StoresRow c.view then c.see (call.leave c.view) else c

/-- A save that has come to the row of its report. -/
theorem operation_save_of_row {id : Text} {r : Report.Draft} {row : ScanRow} {rows : List ScanRow}
    (hrow : History.scanRow id r = .ok row) (hrows : c.view.scans = some rows) :
    History.save id r c =
      ((save id r).next c ((save id r).outcome c.view), (save id r).outcome c.view) := by
  rcases hview : c.view with ⟨versions, scans, violations, cache, changes⟩
  obtain rfl : scans = some rows := by rw [← hrows, hview]
  have hrow? : (save id r).row? = some row := by
    rw [row?, hrow]
    rfl
  have hstores : (save id r).StoresRow c.view := by
    rw [StoresRow, hview, hrow?]
    exact ⟨rfl, rfl⟩
  have hleave : (save id r).leave c.view = ⟨versions, some (rows ++ [row]),
      violations.map (addTo · (save id r)), cache, changes⟩ := by
    rw [leave, if_pos hstores, hrow?, hview]
    rcases cache with _ | kept
    · rfl
    · rfl
  rcases violations with _ | table
  · have houtcome : (save id r).outcome ⟨versions, some rows, none, cache, changes⟩ =
        .error (.noTable Tables.violationsName) := by
      rw [outcome, hrow]
      rfl
    rw [houtcome, next, if_pos hstores, hleave, History.save, hview, hrow]
    rfl
  · have houtcome : (save id r).outcome ⟨versions, some rows, some table, cache, changes⟩ =
        (History.addViolations id table r.violations).2 := by
      rw [outcome, hrow]
      exact outcome_addViolations id _ _ _
    rw [houtcome]
    rcases hadd : History.addViolations id table r.violations with ⟨table', f | ⟨⟩⟩
    · rw [next, if_pos hstores, hleave, Option.map_some, addTo, hadd, History.save, hview, hrow]
      simp only [present, bind, Except.bind, pure, Except.pure, Connection.see, Connection.view,
        Option.getD_some, hadd]
    · rw [next, hleave, Option.map_some, addTo, hadd, History.save, hview, hrow]
      simp only [present, bind, Except.bind, pure, Except.pure, Connection.see, Connection.view,
        Option.getD_some, hadd]

theorem operation_save (id : Text) (r : Report.Draft) (c : Connection) :
    History.save id r c =
      ((save id r).next c ((save id r).outcome c.view), (save id r).outcome c.view) := by
  rcases hview : c.view with ⟨versions, _ | rows, violations, cache, changes⟩
  · have houtcome : (save id r).outcome ⟨versions, none, violations, cache, changes⟩ =
        .error (.noTable Tables.scansName) := rfl
    rw [houtcome, next, hview, if_neg fun h => (by cases h.1), History.save, hview]
    rfl
  rcases hrow : History.scanRow id r with f | row
  · have houtcome : (save id r).outcome ⟨versions, some rows, violations, cache, changes⟩ =
        .error f := by
      rw [outcome, hrow]
      rfl
    have hnone : (save id r).row? = none := by
      rw [row?, hrow]
      rfl
    rw [houtcome, next, if_neg (not_storesRow hnone), History.save, hview, hrow]
    rfl
  · rw [← hview]
    exact operation_save_of_row hrow (by rw [hview])

theorem operation_change {f : Tables → Except StoreFault Tables} (hrow : call.row? = none)
    (hoperation : call.operation = Operation.change f)
    (hf : ∀ t, f t = (call.outcome t).map fun _ => { t with cache := t.cache.map (keepIn · call) })
    (c : Connection) :
    call.operation c = (call.next c (call.outcome c.view), call.outcome c.view) := by
  rw [hoperation, Operation.change, hf, ← leave_of_not_storesRow (not_storesRow hrow)]
  rcases call.outcome c.view with fault | ⟨⟩
  · rw [next, if_neg (not_storesRow hrow)]
    rfl
  · rfl

/-- What a call does to a connection and how it ends. -/
theorem operation_eq (call : Call) (c : Connection) :
    call.operation c = (call.next c (call.outcome c.view), call.outcome c.view) := by
  cases call with
  | save id r => exact operation_save id r c
  | put key report =>
    have hrow : (put key report).row? = none := rfl
    refine operation_change hrow (ReportCache.put.eq_1 key report) (fun t => ?_) c
    rcases t with ⟨versions, scans, violations, _ | rows, changes⟩
    · rfl
    · rfl
  | clear =>
    have hrow : clear.row? = none := rfl
    refine operation_change hrow ReportCache.clear.eq_1 (fun t => ?_) c
    rcases t with ⟨versions, scans, violations, _ | rows, changes⟩
    · rfl
    · rfl

theorem operation_eq_ok (h : call.operation c = (c', .ok ())) :
    call.outcome c.view = .ok () ∧ c' = (c.see (call.leave c.view)).commit := by
  rw [operation_eq] at h
  obtain ⟨rfl, houtcome⟩ := Prod.mk.inj h
  rw [houtcome, next]
  exact ⟨rfl, rfl⟩

/-- A call that fails commits nothing, but what it has put in is seen. -/
theorem operation_eq_error {f : StoreFault} (h : call.operation c = (c', .error f)) :
    call.outcome c.view = .error f ∧ c'.committed = c.committed ∧
      c'.view = call.leave c.view := by
  rw [operation_eq] at h
  obtain ⟨rfl, houtcome⟩ := Prod.mk.inj h
  rw [houtcome, next]
  split_ifs with hrow
  · exact ⟨rfl, rfl, rfl⟩
  · exact ⟨rfl, rfl, (leave_of_error houtcome hrow).symm⟩

end Step

end Call

/-! ## Which tables there are -/

/-- Whether two histories have the same tables, whatever is in them. -/
structure SameTables (t t' : Tables) : Prop where
  scans : t.scans.isSome = t'.scans.isSome
  violations : t.violations.isSome = t'.violations.isSome
  cache : t.cache.isSome = t'.cache.isSome

namespace SameTables

variable {t t' t'' : Tables}

theorem refl (t : Tables) : SameTables t t := ⟨rfl, rfl, rfl⟩

theorem symm (h : SameTables t t') : SameTables t' t :=
  ⟨h.scans.symm, h.violations.symm, h.cache.symm⟩

theorem trans (h : SameTables t t') (h' : SameTables t' t'') : SameTables t t'' :=
  ⟨h.scans.trans h'.scans, h.violations.trans h'.violations, h.cache.trans h'.cache⟩

theorem outcome_eq (h : SameTables t t') (call : Call) : call.outcome t = call.outcome t' := by
  cases call with
  | save id r => rw [Call.outcome, Call.outcome, h.scans, h.violations]
  | put key report | clear => rw [Call.outcome, Call.outcome, h.cache]

theorem storesRow_iff (h : SameTables t t') (call : Call) :
    call.StoresRow t ↔ call.StoresRow t' := by
  rw [Call.StoresRow, Call.StoresRow, h.scans]

theorem leave (call : Call) (t : Tables) : SameTables (call.leave t) t where
  scans := Option.isSome_map
  violations := by
    rw [Call.leave]
    split_ifs
    · exact Option.isSome_map
    · rfl
  cache := Option.isSome_map

end SameTables

/-! ## Runs -/

/-- A call that has been made, and how it ended. -/
structure Ended where
  call : Call
  outcome : Except StoreFault Unit

namespace Ended

/-- Whether the call succeeded. -/
def succeeded (d : Ended) : Bool :=
  match d.outcome with
  | .ok () => true
  | .error _ => false

/-- What the call made of the tables that it saw; success counts as one writing of the file. -/
def leave (t : Tables) (d : Ended) : Tables :=
  match d.outcome with
  | .ok () => { d.call.leave t with changes := t.changes + 1 }
  | .error _ => d.call.leave t

theorem scans_leave (t : Tables) (d : Ended) :
    (d.leave t).scans = t.scans.map (· ++ d.call.row?.toList) := by
  rcases d with ⟨call, f | ⟨⟩⟩
  · rfl
  · rfl

theorem cache_leave (t : Tables) (d : Ended) :
    (d.leave t).cache = t.cache.map (Call.keepIn · d.call) := by
  rcases d with ⟨call, f | ⟨⟩⟩
  · rfl
  · rfl

/-- Each save that came to the row of its report has put it in. -/
theorem scans_foldl (t : Tables) (done : List Ended) :
    (done.foldl leave t).scans = t.scans.map (· ++ done.filterMap fun d => d.call.row?) := by
  induction done generalizing t with
  | nil => simp
  | cons d done ih =>
    rw [List.foldl_cons, ih, scans_leave, Option.map_map, List.filterMap_cons]
    rcases d.call.row? with _ | row
    · simp [Function.comp_def]
    · simp [Function.comp_def]

end Ended

/-- Whether a connection becomes another one by some calls, which end as they do. -/
inductive Runs : Connection → List Ended → Connection → Prop
  | nil (c : Connection) : Runs c [] c
  | cons {c c₁ c₂ : Connection} {call : Call} {outcome : Except StoreFault Unit} {done : List Ended}
      (h : call.operation c = (c₁, outcome)) (rest : Runs c₁ done c₂) :
      Runs c (⟨call, outcome⟩ :: done) c₂

/-- Whatever calls are to be made can be made. -/
theorem exists_runs (c : Connection) (calls : List Call) :
    ∃ done c', Runs c done c' ∧ done.map Ended.call = calls := by
  induction calls generalizing c with
  | nil => exact ⟨[], c, .nil c, rfl⟩
  | cons call calls ih =>
    obtain ⟨done, c', hrun, rfl⟩ := ih (call.operation c).1
    exact ⟨⟨call, (call.operation c).2⟩ :: done, c', .cons rfl hrun, rfl⟩

namespace Runs

variable {c c' : Connection} {done before later : List Ended}

theorem append_iff :
    Runs c (before ++ later) c' ↔ ∃ c₁, Runs c before c₁ ∧ Runs c₁ later c' := by
  constructor
  · intro h
    induction before generalizing c with
    | nil => exact ⟨c, .nil c, h⟩
    | cons d before ih =>
      cases h with
      | cons hcall hrest =>
        obtain ⟨c₁, hbefore, hlater⟩ := ih hrest
        exact ⟨c₁, .cons hcall hbefore, hlater⟩
  · rintro ⟨c₁, hbefore, hlater⟩
    induction hbefore with
    | nil => exact hlater
    | cons hcall _ ih => exact .cons hcall (ih hlater)

/-- What one call leaves is seen afterwards, whether it has been committed or not.  Only a commit
counts as a change, so as many are seen as are committed. -/
theorem view_of_operation {call : Call} {outcome : Except StoreFault Unit}
    (hc : c.view.changes = c.committed.changes) (h : call.operation c = (c', outcome)) :
    c'.view = Ended.leave c.view ⟨call, outcome⟩ ∧ c'.view.changes = c'.committed.changes := by
  rcases outcome with f | ⟨⟩
  · obtain ⟨-, hcommitted, hview⟩ := Call.operation_eq_error h
    exact ⟨hview, by rw [hview, hcommitted]; exact hc⟩
  · obtain ⟨-, rfl⟩ := Call.operation_eq_ok h
    refine ⟨?_, rfl⟩
    rw [Ended.leave, hc]
    rfl

/-- What all calls leave is seen after a run. -/
theorem view_eq (h : Runs c done c') (hc : c.view.changes = c.committed.changes) :
    c'.view = done.foldl Ended.leave c.view := by
  induction h with
  | nil => rfl
  | cons hcall _ ih =>
    obtain ⟨hview, hchanges⟩ := view_of_operation hc hcall
    rw [ih hchanges, hview, List.foldl_cons]

/-- Calls that fail commit nothing. -/
theorem committed_of_failed (h : Runs c done c') (hfailed : ∀ d ∈ done, d.succeeded = false) :
    c'.committed = c.committed := by
  induction h with
  | nil => rfl
  | @cons c c₁ c₂ call outcome done hcall hrest ih =>
    obtain ⟨hfirst, hothers⟩ := List.forall_mem_cons.1 hfailed
    rcases outcome with f | ⟨⟩
    · rw [ih hothers, (Call.operation_eq_error hcall).2.1]
    · cases hfirst

/-- What is committed in the end is what all calls have left up to the last that succeeded. -/
theorem committed_eq {last : Call} (h : Runs c (before ++ Ended.mk last (.ok ()) :: later) c')
    (hc : c.view.changes = c.committed.changes) (hlater : ∀ d ∈ later, d.succeeded = false) :
    c'.committed = (before ++ [Ended.mk last (.ok ())]).foldl Ended.leave c.view := by
  rw [List.append_cons, append_iff] at h
  obtain ⟨c₂, hbefore, hrest⟩ := h
  have hview := hbefore.view_eq hc
  obtain ⟨c₁, -, hlast⟩ := append_iff.1 hbefore
  cases hlast with
  | cons hcall hnil =>
    cases hnil
    obtain ⟨-, rfl⟩ := Call.operation_eq_ok hcall
    rw [hrest.committed_of_failed hlater, ← hview]
    rfl

/-! ## The calls that succeed on their own -/

theorem sameTables_view {call : Call} {outcome : Except StoreFault Unit}
    (h : call.operation c = (c', outcome)) : SameTables c'.view c.view := by
  rcases outcome with f | ⟨⟩
  · rw [(Call.operation_eq_error h).2.2]
    exact .leave call c.view
  · obtain ⟨-, rfl⟩ := Call.operation_eq_ok h
    have hleave := SameTables.leave call c.view
    exact ⟨hleave.scans, hleave.violations, hleave.cache⟩

/-- The calls that succeeded would have done so without the others. -/
theorem exists_alone (h : Runs c done c') {a : Connection} (ha : SameTables c.view a.view) :
    ∃ a', Runs a (done.filter Ended.succeeded) a' := by
  induction h generalizing a with
  | nil => exact ⟨a, .nil a⟩
  | @cons c c₁ c₂ call outcome done hcall hrest ih =>
    have htables := sameTables_view hcall
    rcases outcome with f | ⟨⟩
    · exact ih (htables.trans ha)
    · have houtcome : (call.operation a).2 = .ok () := by
        rw [Call.operation_eq, ← ha.outcome_eq, (Call.operation_eq_ok hcall).1]
      have hcall' : call.operation a = ((call.operation a).1, .ok ()) := Prod.ext rfl houtcome
      obtain ⟨a', hrest'⟩ := ih ((htables.trans ha).trans (sameTables_view hcall').symm)
      exact ⟨a', .cons hcall' hrest'⟩

/-- The calls that failed have left nothing among the reports kept for reuse. -/
theorem cache_eq (h : Runs c done c') (hc : c.view.changes = c.committed.changes) {t : Tables}
    (ht : c.view.cache = t.cache) :
    (done.foldl Ended.leave c.view).cache =
      ((done.filter Ended.succeeded).foldl Ended.leave t).cache := by
  induction h generalizing t with
  | nil => exact ht
  | @cons c c₁ c₂ call outcome done hcall hrest ih =>
    obtain ⟨hview, hchanges⟩ := view_of_operation hc hcall
    rw [List.foldl_cons, ← hview]
    have hcache : c₁.view.cache = c.view.cache.map (Call.keepIn · call) := by
      rw [hview, Ended.cache_leave]
    rcases outcome with f | ⟨⟩
    · rw [Call.keepIn_of_error (Call.operation_eq_error hcall).1] at hcache
      exact ih hchanges (hcache.trans ht)
    · refine ih hchanges ?_
      rw [hcache, ht, Ended.cache_leave]

/-- If no call failed after the row of a report, the calls that failed have left nothing. -/
theorem foldl_eq (h : Runs c done c') (hc : c.view.changes = c.committed.changes)
    (hnone : ∀ d ∈ done, d.succeeded = false → ¬d.call.StoresRow c.view) :
    done.foldl Ended.leave c.view = (done.filter Ended.succeeded).foldl Ended.leave c.view := by
  induction h with
  | nil => rfl
  | @cons c c₁ c₂ call outcome done hcall hrest ih =>
    obtain ⟨hview, hchanges⟩ := view_of_operation hc hcall
    obtain ⟨hfirst, hothers⟩ := List.forall_mem_cons.1 hnone
    have ih := ih hchanges fun d hd hfailed =>
      mt ((sameTables_view hcall).storesRow_iff d.call).1 (hothers d hd hfailed)
    rw [List.foldl_cons, ← hview, ih]
    rcases outcome with f | ⟨⟩
    · obtain ⟨houtcome, -, hleave⟩ := Call.operation_eq_error hcall
      rw [hleave, Call.leave_of_error houtcome (hfirst rfl)]
      rfl
    · rw [hview]
      rfl

end Runs

/-- If as much comes of some elements of a list as of all, nothing comes of the others. -/
theorem eq_none_of_filterMap_filter {α β : Type} {f : α → Option β} {p : α → Bool} {xs : List α}
    (h : xs.filterMap f = (xs.filter p).filterMap f) : ∀ x ∈ xs, p x = false → f x = none := by
  intro x hx hp
  have hlength := congrArg List.length h
  rw [List.length_filterMap_eq_countP, List.length_filterMap_eq_countP,
    List.countP_eq_countP_filter_add xs _ p, Nat.add_eq_left, List.countP_eq_zero] at hlength
  have hnone := hlength x (List.mem_filter.2 ⟨hx, by simp [hp]⟩)
  simpa using hnone

/-- What is committed when a call has succeeded, and maybe others have failed since.  It holds the
row of every save that came as far as that.  The reports kept for reuse are what the calls that
succeeded leave on their own; all tables are, exactly if no call before failed after the row of a
report. -/
theorem committed_eq_alone_iff {t : Tables} {before later : List Ended} {last : Call}
    {c : Connection} (h : Runs ⟨t, none⟩ (before ++ Ended.mk last (.ok ()) :: later) c)
    (hlater : ∀ d ∈ later, d.succeeded = false) :
    ∃ alone, Runs ⟨t, none⟩ (before.filter Ended.succeeded ++ [Ended.mk last (.ok ())]) alone ∧
      c.committed.scans = t.scans.map
        (· ++ (before ++ [Ended.mk last (.ok ())]).filterMap fun d => d.call.row?) ∧
      c.committed.cache = alone.committed.cache ∧
      (c.committed = alone.committed ↔
        ∀ d ∈ before, d.succeeded = false → ¬d.call.StoresRow t) := by
  have hcommitted : c.committed = (before ++ [Ended.mk last (.ok ())]).foldl Ended.leave t :=
    h.committed_eq rfl hlater
  obtain ⟨c₁, hrun, -⟩ := Runs.append_iff.1 (List.append_cons .. ▸ h)
  have hfilter : (before ++ [Ended.mk last (.ok ())]).filter Ended.succeeded =
      before.filter Ended.succeeded ++ [Ended.mk last (.ok ())] := List.filter_append ..
  obtain ⟨alone, halone⟩ := hrun.exists_alone (.refl _)
  rw [hfilter] at halone
  have halone' : alone.committed =
      (before.filter Ended.succeeded ++ [Ended.mk last (.ok ())]).foldl Ended.leave t :=
    halone.committed_eq rfl (by simp)
  refine ⟨alone, halone, ?_, ?_, ?_⟩
  · rw [hcommitted]
    exact Ended.scans_foldl _ _
  · rw [hcommitted, halone', ← hfilter]
    exact hrun.cache_eq rfl rfl
  · rw [hcommitted, halone', ← hfilter]
    constructor
    · intro heq d hd hfailed hstores
      obtain ⟨rows, hrows⟩ := Option.isSome_iff_exists.1 hstores.1
      have hscans := congrArg Tables.scans heq
      rw [Ended.scans_foldl, Ended.scans_foldl, hrows] at hscans
      -- The row of a save that failed would be one more than the calls on their own have.
      have hnone := eq_none_of_filterMap_filter (List.append_cancel_left (Option.some.inj hscans)) d
        (List.mem_append_left _ hd) hfailed
      have hsome := hstores.2
      rw [hnone] at hsome
      cases hsome
    · intro hnone
      refine hrun.foldl_eq rfl fun d hd hfailed => ?_
      rcases List.mem_append.1 hd with hd | hd
      · exact hnone d hd hfailed
      · obtain rfl := List.mem_singleton.1 hd
        cases hfailed

/-- The tables of a history file that has just been made. -/
def newTables : Tables := Tables.blank.migrate

/-- A report of a link at the start of each of some lines, of which as many files as said were
scanned. -/
def linkReport (lines : List ℤ) (filesScanned : ℤ) : Report.Draft where
  violations := lines.map fun line =>
    ⟨.text "a".toList, .int line, .int 0, .text insecure, .text "r".toList⟩
  filesScanned := .int filesScanned
  filesSkipped := .int 0
  diagnostics := []
  roots := [.text "r".toList]
  duration := .real .zero
  timestamp := .real .zero

/-- A save that fails at the row of its report leaves nothing, nor does one that fails after the
last call that succeeds. -/
theorem committed_eq_alone_of_refused :
    let before : List Ended := [⟨.save "a".toList (linkReport [1] (2 ^ 63)), .error .tooLarge⟩,
      ⟨.put "k".toList .null, .ok ()⟩]
    let last : Call := .save "b".toList (linkReport [1, 2] 1)
    let later : List Ended := [⟨.save "c".toList (linkReport [1, 2 ^ 63] 1), .error .tooLarge⟩]
    ∃ c alone, Runs ⟨newTables, none⟩ (before ++ Ended.mk last (.ok ()) :: later) c ∧
      (∀ d ∈ later, d.succeeded = false) ∧
      Runs ⟨newTables, none⟩ (before.filter Ended.succeeded ++ [Ended.mk last (.ok ())]) alone ∧
      c.committed = alone.committed := by
  intro before last later
  have hrun : ∃ c, Runs ⟨newTables, none⟩ (before ++ Ended.mk last (.ok ()) :: later) c :=
    ⟨_, .cons rfl (.cons rfl (.cons rfl (.cons rfl (.nil _))))⟩
  obtain ⟨c, hrun⟩ := hrun
  have hlater : ∀ d ∈ later, d.succeeded = false := by simp [later, Ended.succeeded]
  obtain ⟨alone, halone, -, -, heq⟩ := committed_eq_alone_iff hrun hlater
  refine ⟨c, alone, hrun, hlater, halone, heq.2 fun d hd hfailed => ?_⟩
  rcases List.mem_cons.1 hd with rfl | hd
  · exact Call.not_storesRow rfl
  · obtain rfl := List.mem_singleton.1 hd
    cases hfailed

/-- The row of a report whose second violation cannot be put in is there once all reports kept for
reuse have been forgotten, which on its own puts in no row. -/
theorem committed_of_brokenOff : ∃ c alone row,
    Runs ⟨newTables, none⟩ [⟨.save "a".toList (linkReport [1, 2 ^ 63] 1), .error .tooLarge⟩,
      ⟨.clear, .ok ()⟩] c ∧
    Runs ⟨newTables, none⟩ [⟨.clear, .ok ()⟩] alone ∧
    c.committed.scans = some [row] ∧ row.id = "a".toList ∧ alone.committed.scans = some [] ∧
    c.committed ≠ alone.committed := by
  refine ⟨_, _, _, .cons rfl (.cons rfl (.nil _)), .cons rfl (.nil _), rfl, rfl, rfl, fun heq => ?_⟩
  have hscans := congrArg Tables.scans heq
  cases hscans

end InsecureLinks.Store
