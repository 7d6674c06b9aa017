import Mathlib
import InsecureLinks.Proofs.Scan.Agreement

/-!
# Collecting results in parallel

The tasks of a parallel scan complete in an order that nothing fixes, and when the time is up some
of them have not completed.  What is collected is a set of positions without order
(`Schedule.IsCollection`); the report put together from it holds what the completed files give, in
the order of the files (`report_of_collection`).  The schedules that the clock gives are such
collections too, in line or not (`isCollection_schedule`).
-/

namespace InsecureLinks.Scan

namespace Schedule

/-- Whether a schedule is what a pool of `count` tasks can come to: each completed task is collected
once, in some order, and the time is up exactly if a task is still pending. -/
structure IsCollection (plan : Schedule) (count : ℕ) : Prop where
  nodup : plan.done.Nodup
  lt_of_mem : ∀ k ∈ plan.done, k < count
  timedOut_iff : plan.timedOut = true ↔ ∃ k < count, k ∉ plan.done

/-- The files whose tasks completed, in the order of the files. -/
def completed (plan : Schedule) (files : List SourceFile) : List SourceFile :=
  (files.zipIdx.filter fun p => p.2 ∈ plan.done).map Prod.fst

/-- If no task is pending, all of them have completed. -/
theorem IsCollection.mem_done {plan : Schedule} {count : ℕ} (h : plan.IsCollection count)
    (htime : plan.timedOut = false) {k : ℕ} (hk : k < count) : k ∈ plan.done := by
  by_contra hpending
  have htimedOut := h.timedOut_iff.2 ⟨k, hk, hpending⟩
  rw [htime] at htimedOut
  cases htimedOut

theorem completed_of_all {plan : Schedule} {files : List SourceFile}
    (h : ∀ k < files.length, k ∈ plan.done) : plan.completed files = files := by
  have hall : (files.zipIdx.filter fun p => p.2 ∈ plan.done) = files.zipIdx := by
    refine List.filter_eq_self.2 fun p hp => decide_eq_true ?_
    exact h p.2 (by simpa using List.snd_lt_of_mem_zipIdx hp)
  rw [completed, hall, List.zipIdx_map_fst]

/-- Each completed task is one file. -/
theorem IsCollection.length_completed {plan : Schedule} {files : List SourceFile}
    (h : plan.IsCollection files.length) : (plan.completed files).length = plan.done.length := by
  let positions := (List.range files.length).filter fun k => k ∈ plan.done
  have hpositions : (files.zipIdx.filter fun p => p.2 ∈ plan.done).map Prod.snd = positions := by
    have hrange : List.range files.length = files.zipIdx.map Prod.snd := by
      rw [List.zipIdx_map_snd, List.range_eq_range']
    simp only [positions, hrange, List.filter_map]
    rfl
  have hperm : positions.Perm plan.done := by
    refine (List.perm_ext_iff_of_nodup (List.nodup_range.filter _) h.nodup).2 fun k => ?_
    rw [List.mem_filter, List.mem_range, decide_eq_true_iff]
    exact and_iff_right_of_imp (h.lt_of_mem k)
  rw [completed, List.length_map, ← List.length_map, hpositions, hperm.length_eq]

end Schedule

/-! ## Slots that stay empty -/

section Slots

variable (scan : SourceFile → Outcome) (files : List SourceFile)

theorem violationsOf_filter (slots : Slots) :
    violationsOf (slots.filter Option.isSome) = violationsOf slots := by
  induction slots with
  | nil => rfl
  | cons slot slots ih =>
    rcases slot with _ | outcome
    · simpa [violationsOf] using ih
    · simpa [violationsOf] using ih

theorem diagnosticsOf_filter (slots : Slots) :
    diagnosticsOf (slots.filter Option.isSome) = diagnosticsOf slots := by
  induction slots with
  | nil => rfl
  | cons slot slots ih =>
    rcases slot with _ | _ | d
    · simpa [diagnosticsOf] using ih
    · simpa [diagnosticsOf] using ih
    · simpa [diagnosticsOf] using ih

theorem scannedCount_filter (slots : Slots) :
    scannedCount (slots.filter Option.isSome) = scannedCount slots := by
  induction slots with
  | nil => rfl
  | cons slot slots ih =>
    rcases slot with _ | _ | d
    · simpa [scannedCount] using ih
    · simpa [scannedCount] using ih
    · simpa [scannedCount] using ih

/-- The slots that are filled hold what the completed files give, in the order of the files. -/
theorem filter_fill (plan : Schedule) :
    (fill scan files plan.done).filter Option.isSome =
      (plan.completed files).map fun f => some (scan f) := by
  have hfill : fill scan files plan.done =
      files.zipIdx.map fun p => if p.2 ∈ plan.done then some (scan p.1) else none := by
    refine List.ext_getElem? fun k => ?_
    rw [getElem?_fill, List.getElem?_map, List.getElem?_zipIdx, Option.map_map, Nat.zero_add]
    rfl
  rw [hfill, Schedule.completed, List.map_map]
  induction files.zipIdx with
  | nil => rfl
  | cons p rest ih =>
    by_cases hp : p.2 ∈ plan.done
    · simpa [hp] using ih
    · simpa [hp] using ih

end Slots

/-! ## The report -/

section Report

variable {tree : FileTree} {here : Place} {target : Target} {w : Whitelist} {o : ScanOptions}
  {clock : Clock} {now : Binary64} {found : List SourceFile} {met : List Diagnostic}
  {plan : Schedule}

/-- What keeps the files from being read does not depend on the order in which they are read. -/
theorem limitFault?_of_mem_iff {o' : ScanOptions} (hsize : o.maxFileSize = o'.maxFileSize)
    {done done' : List ℕ} (hmem : ∀ k < found.length, k ∈ done ↔ k ∈ done') :
    limitFault? tree here o found done = limitFault? tree here o' found done' := by
  have hfiles : ∀ f, f ∈ done.filterMap (fun k => found[k]?) ↔
      f ∈ done'.filterMap (fun k => found[k]?) := by
    intro f
    rw [List.mem_filterMap, List.mem_filterMap]
    refine exists_congr fun k => and_congr_left fun hk => ?_
    exact hmem k (List.getElem?_eq_some_iff.1 hk).1
  have hany : (done.filterMap fun k => found[k]?).any (fun f => SourceText.canOpen tree here f.path) =
      (done'.filterMap fun k => found[k]?).any fun f => SourceText.canOpen tree here f.path := by
    rw [Bool.eq_iff_iff, List.any_eq_true, List.any_eq_true]
    exact exists_congr fun f => and_congr_left' (hfiles f)
  rw [limitFault?, limitFault?, hsize, hany]

/-- What is put together from the slots is what the completed files give, in the order of the
files. -/
theorem assemble_fill (scan : SourceFile → Outcome) (passed : List Diagnostic) (roots : List Text)
    (duration : Binary64) {report : Report}
    (hreport : report = assemble (fill scan found plan.done) passed roots duration now) :
    report.violations = (plan.completed found).flatMap (fun f => (scan f).violations) ∧
      report.diagnostics = passed ++ (plan.completed found).flatMap (fun f => (scan f).diagnostics) ∧
      report.filesSkipped =
        ((plan.completed found).flatMap fun f => (scan f).diagnostics).length ∧
      report.filesScanned + report.filesSkipped = (plan.completed found).length := by
  have hviolations : violationsOf (fill scan found plan.done) =
      (plan.completed found).flatMap fun f => (scan f).violations := by
    rw [← violationsOf_filter, filter_fill, violationsOf_map]
  have hdiagnostics : diagnosticsOf (fill scan found plan.done) =
      (plan.completed found).flatMap fun f => (scan f).diagnostics := by
    rw [← diagnosticsOf_filter, filter_fill, diagnosticsOf_map]
  have hcount : scannedCount (fill scan found plan.done) +
      (diagnosticsOf (fill scan found plan.done)).length = (plan.completed found).length := by
    rw [← scannedCount_filter, ← diagnosticsOf_filter, filter_fill, scannedCount_add_skipped]
  subst hreport
  refine ⟨hviolations, ?_, ?_, ?_⟩
  · rw [← hdiagnostics]
    rfl
  · rw [← hdiagnostics]
    rfl
  · rw [← hcount]
    rfl

/-- A scan that collects the results of its tasks in any order, and maybe not of all of them,
reports what the completed files give, in the order of the files.  If no task is pending, a scan in
line reports the same. -/
theorem report_of_collection (hplan : plan.IsCollection found.length)
    (hlimit : limitFault? tree here o found plan.done = none) :
    ∃ report, (plan.timedOut = false →
        carryOut tree here target w o clock now (found, met) plan = .ok report) ∧
      (plan.timedOut = true → ∃ limit,
        carryOut tree here target w o clock now (found, met) plan =
          .error (.timedOut ⟨limit, report⟩)) ∧
      report.violations = (plan.completed found).flatMap
        (fun f => (scanFile tree here w.index o.maxFileSize f).violations) ∧
      report.diagnostics = w.diagnostics ++ met ++ (plan.completed found).flatMap
        (fun f => (scanFile tree here w.index o.maxFileSize f).diagnostics) ∧
      report.filesSkipped = ((plan.completed found).flatMap
        (fun f => (scanFile tree here w.index o.maxFileSize f).diagnostics)).length ∧
      report.filesScanned + report.filesSkipped = plan.done.length ∧
      (plan.timedOut = false → ∀ (o' : ScanOptions) (clock' : Clock) (now' : Binary64),
        o'.workers = some 1 → o'.maxFileSize = o.maxFileSize →
        (schedule o' clock' found.length).timedOut = false →
        ∃ inline, files tree here target w o' clock' now' (found, met) = .ok inline ∧
          inline.violations = report.violations ∧ inline.diagnostics = report.diagnostics ∧
          inline.filesScanned = report.filesScanned ∧
          inline.filesSkipped = report.filesSkipped) := by
  let report := assemble (fill (scanFile tree here w.index o.maxFileSize) found plan.done)
    (w.diagnostics ++ met) target.roots (clock.elapsed plan.readings) now
  obtain ⟨hviolations, hdiagnostics, hskipped, hcount⟩ :=
    assemble_fill (scanFile tree here w.index o.maxFileSize) _ _ _ (rfl : report = _)
  refine ⟨report, fun htime => ?_, fun htime => ?_, hviolations, hdiagnostics, hskipped,
    by rw [hcount, hplan.length_completed], fun htime o' clock' now' _ hsize htime' => ?_⟩
  · rw [carryOut, hlimit, htime]
    rfl
  · rw [carryOut, hlimit, htime]
    exact ⟨_, rfl⟩
  · have hall : ∀ k < found.length, k ∈ plan.done := fun k hk => hplan.mem_done htime hk
    have hlimit' : limitFault? tree here o' found (List.range found.length) = none := by
      rw [← hlimit]
      refine limitFault?_of_mem_iff hsize fun k hk => ?_
      exact ⟨fun _ => hall k hk, fun _ => List.mem_range.2 hk⟩
    obtain ⟨inline, hinline⟩ := @exists_report_of_files tree here target w o' clock' now' found met
      htime' hlimit'
    obtain ⟨hviolations', hdiagnostics', hskipped', hcount'⟩ := files_eq_ok hinline
    rw [hsize] at hviolations' hdiagnostics' hskipped'
    rw [Schedule.completed_of_all hall] at hviolations hdiagnostics hskipped hcount
    have hsame : inline.filesSkipped = report.filesSkipped := hskipped'.trans hskipped.symm
    have hcount' : inline.filesScanned + inline.filesSkipped = found.length := hcount'
    exact ⟨inline, hinline, hviolations'.trans hviolations.symm,
      hdiagnostics'.trans hdiagnostics.symm, by omega, hsame⟩

/-- A scan that comes to a report, in time or not, has put it together from its slots. -/
theorem report_eq_of_carryOut {report : Report}
    (h : carryOut tree here target w o clock now (found, met) plan = .ok report ∨
      ∃ limit, carryOut tree here target w o clock now (found, met) plan =
        .error (.timedOut ⟨limit, report⟩)) :
    report = assemble (fill (scanFile tree here w.index o.maxFileSize) found plan.done)
      (w.diagnostics ++ met) target.roots (clock.elapsed plan.readings) now := by
  rcases hlimit : limitFault? tree here o found plan.done with _ | e
  · rcases htime : plan.timedOut with _ | _
    · simp only [carryOut, hlimit, htime, Bool.false_eq_true, if_false] at h
      rcases h with h | ⟨limit, h⟩
      · exact (Except.ok.inj h).symm
      · cases h
    · simp only [carryOut, hlimit, htime, if_true] at h
      rcases h with h | ⟨limit, h⟩
      · cases h
      · exact (congrArg ScanTimeout.report (ScanFault.timedOut.inj (Except.error.inj h))).symm
  · simp only [carryOut, hlimit] at h
    rcases h with h | ⟨limit, h⟩
    · cases h
    · cases h

/-- What a scan reports, even one that did not end in time, are the violations of some files. -/
theorem exists_files_of_scan {report : Report} (h : run tree here target w o clock now = .ok report ∨
    ∃ limit, run tree here target w o clock now = .error (.timedOut ⟨limit, report⟩)) :
    ∃ fs : List SourceFile, report.violations =
      fs.flatMap fun f => (scanFile tree here w.index o.maxFileSize f).violations := by
  rcases hfind : find tree here target with fault | ⟨found, met⟩
  · rw [run, hfind] at h
    rcases h with h | ⟨limit, h⟩
    · cases h
    · cases h
  · rw [run, hfind] at h
    dsimp only at h
    rcases hrefused : waitIsRefused o clock found.length with _ | _
    · rw [files_of_not_waitIsRefused hrefused] at h
      exact ⟨_, (assemble_fill _ _ _ _ (report_eq_of_carryOut h)).1⟩
    · -- A scan whose wait is refused reports nothing.
      rw [files, if_pos hrefused] at h
      rcases h with h | ⟨limit, h⟩
      · cases h
      · cases h

/-- Two files beneath the folder `r`, of which the second is not there. -/
def presentAndAbsent : List SourceFile := [⟨"r".toList, "a".toList⟩, ⟨"r".toList, "b".toList⟩]

theorem report_of_collection_backwards :
    ∃ report inline,
      carryOut oneLink [] everything .empty unhurried (.stepping .zero) .zero (presentAndAbsent, [])
        ⟨[1, 0], false, 2⟩ = .ok report ∧
      files oneLink [] everything .empty { unhurried with workers := some 1 } (.stepping .zero) .zero
        (presentAndAbsent, []) = .ok inline ∧
      inline.violations = report.violations ∧ report.filesScanned + report.filesSkipped = 2 := by
  have hplan : (⟨[1, 0], false, 2⟩ : Schedule).IsCollection presentAndAbsent.length :=
    ⟨by decide, by decide, by decide⟩
  obtain ⟨report, hends, -, -, -, -, hcount, hinline⟩ :=
    @report_of_collection oneLink [] everything .empty unhurried (.stepping .zero) .zero
      presentAndAbsent [] ⟨[1, 0], false, 2⟩ hplan rfl
  obtain ⟨inline, hfiles, hsame, -⟩ := hinline rfl { unhurried with workers := some 1 }
    (.stepping .zero) .zero rfl rfl (not_timedOut_of_none rfl _ _)
  exact ⟨report, inline, hends rfl, hfiles, hsame, hcount⟩

end Report

/-! ## The schedules of the clock -/

theorem Schedule.isCollection_all (count readings : ℕ) :
    IsCollection ⟨List.range count, false, readings⟩ count where
  nodup := List.nodup_range
  lt_of_mem _ hk := List.mem_range.1 hk
  timedOut_iff := by simp

theorem Schedule.isCollection_cut {count k : ℕ} (hk : k < count) (readings : ℕ) :
    IsCollection ⟨List.range k, true, readings⟩ count where
  nodup := List.nodup_range
  lt_of_mem _ hj := (List.mem_range.1 hj).trans hk
  timedOut_iff := iff_of_true rfl ⟨k, hk, by simp⟩

/-- Whatever a pool has scanned, the rest is left out. -/
theorem Schedule.isCollection_pool (clock : Clock) (limit : Binary64) (count readings : ℕ) :
    IsCollection ⟨poolDone clock limit count, (poolDone clock limit count).length < count, readings⟩
      count where
  nodup := List.nodup_range.sublist (sublist_poolDone clock limit count)
  lt_of_mem _ hk := List.mem_range.1 ((sublist_poolDone clock limit count).subset hk)
  timedOut_iff := by
    have hsublist := sublist_poolDone clock limit count
    rw [decide_eq_true_eq]
    constructor
    · intro hshort
      by_contra hall
      push Not at hall
      have hsubset : List.range count ⊆ poolDone clock limit count :=
        fun k hk => hall k (List.mem_range.1 hk)
      have hlength := (List.nodup_range.subperm hsubset).length_le
      rw [List.length_range] at hlength
      omega
    · rintro ⟨k, hk, hmiss⟩
      by_contra hlong
      have heq := hsublist.eq_of_length_le (by rw [List.length_range]; omega)
      exact hmiss (heq ▸ List.mem_range.2 hk)

/-- The schedules that the clock gives are collections, whatever the number of workers. -/
theorem isCollection_schedule (o : ScanOptions) (clock : Clock) (count : ℕ) :
    (schedule o clock count).IsCollection count := by
  rw [schedule]
  split_ifs with hinline
  · unfold inlineSchedule
    split
    · exact Schedule.isCollection_all count 1
    · dsimp only
      split_ifs with hcut
      · exact Schedule.isCollection_cut hcut _
      · exact Schedule.isCollection_all count _
  · unfold parallelSchedule
    split
    · exact Schedule.isCollection_all count 1
    · exact Schedule.isCollection_pool clock _ count 2

end InsecureLinks.Scan
