import Mathlib
import InsecureLinks.Proofs.Scan.Collecting

/-!
# Scans that run out of time

A scan in line reads the clock before each file, and the time is up at the first file before which too
much of it has passed (`inTime_eq`).  What was found until then is what a scan of the files before that
one finds when it has all the time it takes (`carryOut_range`), so a scan in line either reports what it
reports without a timeout, or ends with the report of its first files (`files_inline`).
-/

namespace InsecureLinks.Scan

/-! ## The clock -/

/-- Whether the time is up when the file at position `k` is due: the reading before it is more than the
timeout after the first reading. -/
def IsLate (o : ScanOptions) (clock : Clock) (k : ℕ) : Prop :=
  ∃ limit, o.timeout = some limit ∧ limit.lt (clock.elapsed (k + 1)) = true

section Clock

variable {o : ScanOptions} {clock : Clock}

theorem inTime_eq {limit : Binary64} {count k j : ℕ} (hfrom : k ≤ j) (hto : j ≤ k + count)
    (hbefore : ∀ i, k ≤ i → i < j → limit.lt (clock.elapsed (i + 1)) = false)
    (hlate : j < k + count → limit.lt (clock.elapsed (j + 1)) = true) :
    inTime clock limit count k = j := by
  induction count generalizing k with
  | zero => exact le_antisymm hfrom hto
  | succ count ih =>
    rw [inTime]
    rcases eq_or_lt_of_le hfrom with rfl | hlt
    · rw [if_pos (hlate (by omega))]
    · rw [if_neg (by simp [hbefore k le_rfl hlt])]
      exact ih hlt (by omega) (fun i hi => hbefore i (by omega)) fun h => hlate (by omega)

/-- Files that are scanned in line are all scanned if the time is never up. -/
theorem inlineSchedule_of_not_late {count : ℕ} (h : ∀ k < count, ¬IsLate o clock k) :
    ∃ readings, inlineSchedule clock o.timeout count = ⟨List.range count, false, readings⟩ := by
  rcases htimeout : o.timeout with _ | limit
  · exact ⟨1, rfl⟩
  · have hnever : ∀ k < count, limit.lt (clock.elapsed (k + 1)) = false :=
      fun k hk => Bool.eq_false_of_not_eq_true fun hlate => h k hk ⟨limit, htimeout, hlate⟩
    have hall : inTime clock limit count 0 = count :=
      inTime_eq (Nat.zero_le _) (by omega) (fun i _ hi => hnever i hi) fun hlt => by omega
    rw [inlineSchedule, hall, if_neg (lt_irrefl _)]
    exact ⟨_, rfl⟩

/-- Once the time is up no more files are scanned. -/
theorem inlineSchedule_of_late {count k : ℕ} {limit : Binary64} (htimeout : o.timeout = some limit)
    (hk : k < count) (hlate : IsLate o clock k) (hbefore : ∀ j < k, ¬IsLate o clock j) :
    inlineSchedule clock o.timeout count = ⟨List.range k, true, k + 2⟩ := by
  have hup : limit.lt (clock.elapsed (k + 1)) = true := by
    obtain ⟨limit', htimeout', hup⟩ := hlate
    cases htimeout.symm.trans htimeout'
    exact hup
  have hsome : inTime clock limit count 0 = k :=
    inTime_eq (Nat.zero_le _) (by omega)
      (fun i _ hi => Bool.eq_false_of_not_eq_true fun hup => hbefore i hi ⟨limit, htimeout, hup⟩)
      fun _ => hup
  rw [htimeout, inlineSchedule, hsome, if_pos hk]

/-- A scan in line waits for nothing. -/
theorem waitIsRefused_of_inline {count : ℕ} (h : workerCount o = 1 ∨ count ≤ 1) :
    waitIsRefused o clock count = false := by
  rw [waitIsRefused]
  rcases o.timeout with _ | limit
  · rfl
  · rcases h with h | h
    · simp [h]
    · simp [not_lt.2 h]

end Clock

/-! ## The first files -/

/-- Where only the first files are scanned, the other slots stay empty. -/
theorem fill_append (scan : SourceFile → Outcome) (first rest : List SourceFile) :
    fill scan (first ++ rest) (List.range first.length) =
      first.map (fun f => some (scan f)) ++ rest.map fun _ => none := by
  refine List.ext_getElem? fun i => ?_
  rw [getElem?_fill]
  by_cases hi : i < first.length
  · rw [List.getElem?_append_left hi, List.getElem?_append_left (by simpa using hi)]
    simp [hi]
  · rw [List.getElem?_append_right (not_lt.1 hi),
      List.getElem?_append_right (by simpa using not_lt.1 hi), List.length_map, List.getElem?_map]
    simp only [List.mem_range, hi, if_false]

theorem filterMap_getElem?_append (first rest : List SourceFile) :
    (List.range first.length).filterMap (fun i => (first ++ rest)[i]?) = first := by
  induction first using List.reverseRecOn generalizing rest with
  | nil => rfl
  | append_singleton first f ih =>
    rw [List.append_assoc, List.length_append, List.length_singleton, List.range_succ,
      List.filterMap_append, ih]
    simp

/-- Slots that stay empty add nothing to a report. -/
theorem assemble_congr {slots slots' : Slots}
    (h : slots.filter Option.isSome = slots'.filter Option.isSome) (passed : List Diagnostic)
    (roots : List Text) (duration timestamp : Binary64) :
    assemble slots passed roots duration timestamp =
      assemble slots' passed roots duration timestamp := by
  rw [assemble, assemble, ← violationsOf_filter slots, ← diagnosticsOf_filter slots,
    ← scannedCount_filter slots, h, violationsOf_filter, diagnosticsOf_filter, scannedCount_filter]

section Scan

variable {tree : FileTree} {here : Place} {target : Target} {w : Whitelist} {o : ScanOptions}
  {clock : Clock} {now : Binary64} {found : List SourceFile} {met : List Diagnostic}

/-- What a scan of some files ends with that is given all the time it takes. -/
def unhurriedly (tree : FileTree) (here : Place) (target : Target) (w : Whitelist) (o : ScanOptions)
    (clock : Clock) (now : Binary64) (found : List SourceFile) (met : List Diagnostic) :
    Except ScanFault Report :=
  files tree here target w { o with timeout := none } clock now (found, met)

theorem unhurriedly_eq :
    unhurriedly tree here target w o clock now found met =
      match limitFault? tree here o found (List.range found.length) with
      | some f => .error (.limit f)
      | none => .ok (assemble (found.map fun f =>
          some (scanFile tree here w.index o.maxFileSize f)) (w.diagnostics ++ met) target.roots
            (clock.elapsed 1) now) := by
  have hschedule : schedule { o with timeout := none } clock found.length =
      ⟨List.range found.length, false, 1⟩ := by
    rw [schedule]
    split_ifs <;> rfl
  rw [unhurriedly, files, hschedule, carryOut]
  dsimp only
  rw [fill_of_all _ _ fun k hk => List.mem_range.2 hk]
  rfl

theorem limitFault?_append (first rest : List SourceFile) :
    limitFault? tree here o (first ++ rest) (List.range first.length) =
      limitFault? tree here o first (List.range first.length) := by
  have hfirst := filterMap_getElem?_append first []
  rw [List.append_nil] at hfirst
  rw [limitFault?, limitFault?, filterMap_getElem?_append, hfirst]

/-- A schedule that is through with the first files gives what they give unhurriedly. -/
theorem carryOut_range (first rest : List SourceFile) (late : Bool) (readings : ℕ) :
    carryOut tree here target w o clock now (first ++ rest, met)
        ⟨List.range first.length, late, readings⟩ =
      (unhurriedly tree here target w o clock now first met).bind fun r =>
        let r := { r with duration := .real (clock.elapsed readings) }
        let limit := o.timeout.getD Binary64.zero
        if late then .error (.timedOut ⟨if limit.isZero then Binary64.zero else limit, r⟩)
        else .ok r := by
  rw [unhurriedly_eq, carryOut]
  dsimp only
  rw [limitFault?_append, fill_append]
  rcases limitFault? tree here o first (List.range first.length) with _ | f
  · have hslots : ((first.map fun f => some (scanFile tree here w.index o.maxFileSize f)) ++
          rest.map fun _ => none).filter Option.isSome =
        (first.map fun f => some (scanFile tree here w.index o.maxFileSize f)).filter
          Option.isSome := by
      simp
    dsimp only
    rw [assemble_congr hslots]
    rfl
  · rfl

theorem prefix_of_unhurriedly {first rest : List SourceFile} {r complete : Report}
    (hfirst : unhurriedly tree here target w o clock now first met = .ok r)
    (hcomplete : unhurriedly tree here target w o clock now (first ++ rest) met = .ok complete) :
    r.violations <+: complete.violations ∧ r.diagnostics <+: complete.diagnostics := by
  obtain ⟨hviolations, hdiagnostics, -, -⟩ := files_eq_ok hfirst
  obtain ⟨hviolations', hdiagnostics', -, -⟩ := files_eq_ok hcomplete
  rw [hviolations, hviolations', hdiagnostics, hdiagnostics', List.flatMap_append,
    List.flatMap_append, ← List.append_assoc]
  exact ⟨List.prefix_append _ _, List.prefix_append _ _⟩

/-- A scan in line ends with what it ends with unhurriedly if the time is never up when a file is due.
Otherwise it ends with a timeout at the first such file, and the report is that of the files before it:
their violations and diagnostics are the first that are reported unhurriedly, and each of them is
counted once.  Given all the time it takes, every scan ends with a report, unless its size limit is
beyond what can be asked for. -/
theorem files_inline (hinline : workerCount o = 1 ∨ found.length ≤ 1) :
    ((∀ k < found.length, ¬IsLate o clock k) → ∃ duration,
      files tree here target w o clock now (found, met) =
        (unhurriedly tree here target w o clock now found met).map fun r => { r with duration }) ∧
    (∀ k < found.length, IsLate o clock k → (∀ j < k, ¬IsLate o clock j) → ∃ limit,
      o.timeout = some limit ∧ files tree here target w o clock now (found, met) =
        (unhurriedly tree here target w o clock now (found.take k) met).bind fun r =>
          .error (.timedOut ⟨if limit.isZero then Binary64.zero else limit,
            { r with duration := .real (clock.elapsed (k + 2)) }⟩)) ∧
    (∀ k ≤ found.length, ∀ r,
      unhurriedly tree here target w o clock now (found.take k) met = .ok r →
        r.filesScanned + r.filesSkipped = k ∧
        ∀ complete, unhurriedly tree here target w o clock now found met = .ok complete →
          r.violations <+: complete.violations ∧ r.diagnostics <+: complete.diagnostics) ∧
    (SourceText.limitFault? o.maxFileSize = none → ∀ files, ∃ r,
      unhurriedly tree here target w o clock now files met = .ok r) := by
  have hfiles : files tree here target w o clock now (found, met) =
      carryOut tree here target w o clock now (found, met)
        (inlineSchedule clock o.timeout found.length) := by
    rw [files_of_not_waitIsRefused (waitIsRefused_of_inline hinline), schedule, if_pos hinline]
  refine ⟨fun hnever => ?_, fun k hk hlate hbefore => ?_, fun k hk r hr => ⟨?_, fun complete h => ?_⟩,
    fun hlimit files => ?_⟩
  · obtain ⟨readings, hschedule⟩ := inlineSchedule_of_not_late hnever
    have hall := @carryOut_range tree here target w o clock now met found [] false readings
    rw [List.append_nil] at hall
    exact ⟨_, by rw [hfiles, hschedule, hall]; rfl⟩
  · obtain ⟨limit, htimeout, -⟩ := id hlate
    have hlength : (found.take k).length = k := List.length_take_of_le hk.le
    have hcut := @carryOut_range tree here target w o clock now met (found.take k) (found.drop k) true
      (k + 2)
    rw [List.take_append_drop, hlength] at hcut
    refine ⟨limit, htimeout, ?_⟩
    rw [hfiles, inlineSchedule_of_late htimeout hk hlate hbefore, hcut, htimeout]
    rfl
  · rw [(files_eq_ok hr).2.2.2, List.length_take_of_le hk]
  · rw [← List.take_append_drop k found] at h
    exact prefix_of_unhurriedly hr h
  · rw [unhurriedly_eq, limitFault?, hlimit]
    exact ⟨_, rfl⟩

end Scan

/-- One file at a time, and no second to lose. -/
def hurried : ScanOptions := ⟨some 1, SourceText.defaultMaxFileSize, some .zero, 4⟩

/-- A clock that stands still until the first file has been scanned. -/
def lateClock : Clock :=
  { Clock.stepping .zero with readings := fun k => if k < 2 then .zero else .ofInt 1 }

theorem isLate_hurried : IsLate hurried lateClock 1 := ⟨.zero, rfl, by decide +kernel⟩

theorem files_inline_hurried : ∃ (r : Report) (limit : Binary64), r.filesScanned + r.filesSkipped = 1 ∧
    files oneLink [] everything .empty hurried lateClock .zero (presentAndAbsent, []) =
      .error (.timedOut ⟨limit, { r with duration := .real (lateClock.elapsed 3) }⟩) := by
  have hbefore : ∀ j < 1, ¬IsLate hurried lateClock j := by
    rintro j hj ⟨limit, hlimit, hlate⟩
    obtain rfl := Nat.lt_one_iff.1 hj
    cases hlimit
    revert hlate
    decide +kernel
  obtain ⟨-, hcut, hshorter, hends⟩ := @files_inline oneLink [] everything .empty hurried lateClock
    .zero presentAndAbsent [] (.inl rfl)
  obtain ⟨limit, -, hfiles⟩ := hcut 1 (by decide) isLate_hurried hbefore
  obtain ⟨r, hr⟩ := hends rfl (presentAndAbsent.take 1)
  rw [hr] at hfiles
  exact ⟨r, _, (hshorter 1 (by decide) r hr).1, hfiles⟩

end InsecureLinks.Scan
