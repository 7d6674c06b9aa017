import Mathlib
import InsecureLinks.Proofs.Scan.Agreement
import InsecureLinks.Proofs.Whitelist.Appending
import InsecureLinks.Proofs.Whitelist.Index

/-!
# Allowing one more line

A whitelist with one more entry takes from the outcome of each file the violations that the entry is
for, and touches nothing else (`scanFile_withEntries`).  So a scan whose whitelist has a line added to
its text, a path with a line number, reports what it did without the violations of that line of that
file, and all else is the same but how long it took and when it ended (`run_of_added_line`).
-/

namespace InsecureLinks

namespace Whitelist

/-- An entry for a line of a file allows the violations of that line and no others. -/
theorem allows_line (p : Text) (n : ℤ) (v : Violation) :
    Allows ⟨[⟨p, some n, none⟩], [], []⟩ v ↔ v.filePath = p ∧ v.lineNumber = n := by
  simp [Allows, eq_comm]

end Whitelist

/-- Whether a violation is somewhere else than on a line of a file. -/
def Violation.isOffLine (p : Text) (n : ℤ) (v : Violation) : Bool :=
  ¬(v.filePath = p ∧ v.lineNumber = n)

namespace Report

/-- A report without the violations on a line of a file. -/
def withoutLine (p : Text) (n : ℤ) (r : Report) : Report :=
  { r with violations := r.violations.filter (·.isOffLine p n) }

/-- A report without how long the scan took and when it ended. -/
def untimed (r : Report) : Report := { r with duration := .whole 0, timestamp := .whole 0 }

end Report

namespace Scan

/-! ## Slots -/

/-- What is left of an outcome when some violations only are kept. -/
def Outcome.keeping (keep : Violation → Bool) : Outcome → Outcome
  | .scanned vs => .scanned (vs.filter keep)
  | .skipped d => .skipped d

theorem scanFile_withEntries {tree : FileTree} {here : Place} {w : Whitelist} {p : Text} {n m : ℤ}
    (f : SourceFile) :
    scanFile tree here (w.withEntries [⟨p, some n, none⟩]).index m f =
      (scanFile tree here w.index m f).keeping (·.isOffLine p n) := by
  have hkept : ∀ vs : List Violation,
      Whitelist.Index.filter (w.withEntries [⟨p, some n, none⟩]).index vs =
        (Whitelist.Index.filter w.index vs).filter (·.isOffLine p n) := by
    intro vs
    rw [Whitelist.filter_index, Whitelist.filter_index, List.filter_filter]
    refine List.filter_congr fun v _ => ?_
    rw [Bool.eq_iff_iff, Bool.and_eq_true, decide_eq_true_iff, decide_eq_true_iff,
      Violation.isOffLine, decide_eq_true_iff, Whitelist.allows_withEntries, Whitelist.allows_line,
      not_or, and_comm]
  rw [scanFile, scanFile]
  rcases SourceText.read tree here m f.path with s | t
  · rfl
  · exact congrArg Outcome.scanned (hkept _)

section Slots

variable (keep : Violation → Bool)

theorem fill_keeping (scan : SourceFile → Outcome) (files : List SourceFile) (done : List ℕ) :
    fill (fun f => (scan f).keeping keep) files done =
      (fill scan files done).map (Option.map (Outcome.keeping keep)) := by
  refine List.ext_getElem? fun k => ?_
  rw [List.getElem?_map, getElem?_fill, getElem?_fill, Option.map_map]
  refine congrArg (files[k]?.map ·) (funext fun f => ?_)
  by_cases hk : k ∈ done
  · simp [hk]
  · simp [hk]

theorem violationsOf_keeping (slots : Slots) :
    violationsOf (slots.map (Option.map (Outcome.keeping keep))) =
      (violationsOf slots).filter keep := by
  rw [violationsOf, violationsOf, List.flatMap_map, List.filter_flatMap]
  refine congrArg (List.flatMap · slots) (funext fun slot => ?_)
  rcases slot with _ | _ | _
  · rfl
  · rfl
  · rfl

theorem diagnosticsOf_keeping (slots : Slots) :
    diagnosticsOf (slots.map (Option.map (Outcome.keeping keep))) = diagnosticsOf slots := by
  rw [diagnosticsOf, diagnosticsOf, List.filterMap_map]
  refine congrArg (List.filterMap · slots) (funext fun slot => ?_)
  rcases slot with _ | _ | _
  · rfl
  · rfl
  · rfl

theorem scannedCount_keeping (slots : Slots) :
    scannedCount (slots.map (Option.map (Outcome.keeping keep))) = scannedCount slots := by
  rw [scannedCount, scannedCount, List.countP_map]
  refine congrArg (List.countP · slots) (funext fun slot => ?_)
  rcases slot with _ | _ | _
  · rfl
  · rfl
  · rfl

end Slots

/-! ## A scan -/

/-- What a scan ends with, its report changed, also where that is the report of a scan that was cut
short. -/
def mapReport (change : Report → Report) : Except ScanFault Report → Except ScanFault Report
  | .ok r => .ok (change r)
  | .error (.timedOut t) => .error (.timedOut { t with report := change t.report })
  | .error f => .error f

/-- Whether by two clocks the same files are scanned before the timeout, and by both or by neither
the wait for them is too long. -/
def ClocksAgree (o : ScanOptions) (clock clock' : Clock) : Prop :=
  ∀ count, (schedule o clock count).done = (schedule o clock' count).done ∧
    (schedule o clock count).timedOut = (schedule o clock' count).timedOut ∧
    waitIsRefused o clock count = waitIsRefused o clock' count

/-- Without a timeout all clocks agree. -/
theorem clocksAgree_of_none {o : ScanOptions} (h : o.timeout = none) (clock clock' : Clock) :
    ClocksAgree o clock clock' := by
  intro count
  have htime := not_timedOut_of_none h clock count
  have htime' := not_timedOut_of_none h clock' count
  exact ⟨(done_of_not_timedOut htime).trans (done_of_not_timedOut htime').symm,
    htime.trans htime'.symm,
    (waitIsRefused_of_not_timedOut htime).trans (waitIsRefused_of_not_timedOut htime').symm⟩

section Run

variable {tree : FileTree} {here : Place} {target : Target} {w : Whitelist} {o : ScanOptions}
  {clock clock' : Clock} {now now' : Binary64}

theorem run_withEntries (hclocks : ClocksAgree o clock clock') (p : Text) (n : ℤ) :
    mapReport Report.untimed
        (run tree here target (w.withEntries [⟨p, some n, none⟩]) o clock' now') =
      mapReport (fun r => (r.withoutLine p n).untimed) (run tree here target w o clock now) := by
  rw [run, run]
  rcases find tree here target with f | found
  · rfl
  -- The files and the schedule are the same; from here on only the slots differ.
  obtain ⟨hdone, htimedOut, hrefused⟩ := hclocks found.1.length
  dsimp only
  rw [files, files, hrefused]
  split_ifs
  · rfl
  rw [carryOut, carryOut, hdone, htimedOut]
  rcases limitFault? tree here o found.1 (schedule o clock' found.1.length).done with _ | f
  · have hscan : scanFile tree here (w.withEntries [⟨p, some n, none⟩]).index o.maxFileSize =
        fun f => (scanFile tree here w.index o.maxFileSize f).keeping (·.isOffLine p n) :=
      funext scanFile_withEntries
    have hreport : ∀ slots duration duration',
        (assemble (slots.map (Option.map (Outcome.keeping (·.isOffLine p n))))
          ((w.withEntries [⟨p, some n, none⟩]).diagnostics ++ found.2) target.roots duration'
          now').untimed =
        ((assemble slots (w.diagnostics ++ found.2) target.roots duration now).withoutLine p
          n).untimed := by
      intro slots duration duration'
      simp only [assemble, Report.untimed, Report.withoutLine, violationsOf_keeping,
        diagnosticsOf_keeping, scannedCount_keeping, Whitelist.withEntries]
    dsimp only
    rw [hscan, fill_keeping]
    cases (schedule o clock' found.1.length).timedOut with
    | false => exact congrArg Except.ok (hreport _ _ _)
    | true => exact congrArg (fun r => Except.error (ScanFault.timedOut ⟨_, r⟩)) (hreport _ _ _)
  · rfl

/-- A scan whose whitelist is read from a text with one more line, for a line of a file, reports what
it reported but the violations of that line. -/
theorem run_of_added_line {source content p : Text}
    (hread : Whitelist.ofText source content = .ok w) (hp : WhitelistEntry.IsPlainPath p) {n : ℕ}
    (hn : 1 ≤ n) (hdigits : (Text.natural n).length ≤ Literal.maxDigits)
    (hclocks : ClocksAgree o clock clock') :
    ∃ w', Whitelist.ofText source (content ++ '\n' :: (p ++ ':' :: Text.natural n)) = .ok w' ∧
      mapReport Report.untimed (run tree here target w' o clock' now') =
        mapReport (fun r => (r.withoutLine p n).untimed) (run tree here target w o clock now) :=
  ⟨_, Whitelist.ofText_append hread hp hn hdigits, run_withEntries hclocks p n⟩

open Whitelist (malformed oneMalformed ofText_malformed)

theorem find_oneLink :
    find oneLink [] everything = .ok ([⟨"r".toList, "a".toList⟩], []) := by cbv

theorem scanFile_oneLink :
    scanFile oneLink [] [] unhurried.maxFileSize ⟨"r".toList, "a".toList⟩ =
      .scanned [⟨"a".toList, 1, 0, insecure, "r".toList⟩] := by cbv

theorem run_of_added_line_oneLink :
    ∃ w' r, Whitelist.ofText [] malformed = .ok oneMalformed ∧
      Whitelist.ofText [] (malformed ++ "\na:1".toList) = .ok w' ∧
      run oneLink [] everything oneMalformed unhurried (.stepping .zero) .zero = .ok r ∧
      r.violations = [⟨"a".toList, 1, 0, insecure, "r".toList⟩] ∧
      mapReport Report.untimed
          (run oneLink [] everything w' unhurried (.stepping .zero) (.ofInt 1)) =
        .ok (r.withoutLine "a".toList 1).untimed := by
  have hp : WhitelistEntry.IsPlainPath "a".toList := by
    have ha : ∀ c ∈ "a".toList, c = 'a' := by simp
    refine ⟨by decide, by decide, by decide, fun c hc => ?_, fun c hc => ?_, fun c hc => ?_⟩
    · rw [ha c hc]
      decide
    · rw [ha c (List.mem_of_head? hc)]
      decide
    · rw [ha c (List.mem_of_getLast? hc)]
      decide
  have hone : Text.natural 1 = ['1'] := Text.natural_of_lt (by decide)
  obtain ⟨w', hread', hrun⟩ := @run_of_added_line oneLink [] everything oneMalformed unhurried
    (.stepping .zero) (.stepping .zero) .zero (.ofInt 1) [] malformed "a".toList ofText_malformed hp 1
    le_rfl (by rw [hone]; decide) (clocksAgree_of_none rfl _ _)
  rw [hone] at hread'
  obtain ⟨r, hr⟩ := @exists_report_of_find oneLink [] everything oneMalformed unhurried
    (.stepping .zero) .zero _ find_oneLink (not_timedOut_of_none rfl _ _) (by decide) (by decide)
  have hviolations : r.violations = [⟨"a".toList, 1, 0, insecure, "r".toList⟩] := by
    rw [run, find_oneLink] at hr
    rw [(files_eq_ok hr).1, List.flatMap_singleton]
    exact congrArg Outcome.violations scanFile_oneLink
  rw [hr] at hrun
  exact ⟨w', r, ofText_malformed, hread', hr, hviolations, hrun⟩

end Run

end Scan

end InsecureLinks
