import Mathlib
import InsecureLinks.Proofs.Document.Json
import InsecureLinks.Proofs.Store.Column
import InsecureLinks.Proofs.Store.Connection
import InsecureLinks.Store.History

/-!
# The history of scans

However many reports are saved, each is got back under its identifier with its own violations in their
order (`Holds.get_eq`), though the violations of all stand in one table, and the pages of the list of
scans, put together, are all scans from the latest to the earliest (`Holds.pages_eq`).  Both follow from
what one save adds to the tables (`Describes.add`).
-/

namespace InsecureLinks

/-! ## Measures in a column -/

namespace Measure

/-- A measure as a double precision number. -/
def rounded : Measure → Binary64
  | whole i => Binary64.ofInt i
  | real x => x

/-- Whether a measure is a finite double precision number. -/
def IsFiniteReal : Measure → Prop
  | whole _ => False
  | real x => x.IsFiniteDouble

theorem IsFiniteReal.rounded {m : Measure} (h : m.IsFiniteReal) : m.rounded.IsFiniteDouble := by
  cases m with
  | whole i => exact h.elim
  | real x => exact h

/-- A measure as a column for real numbers gives it back. -/
def stored (m : Measure) : Store.Cell := .real m.rounded.withoutZeroSign

/-- Whether a cell holds the number that a measure is. -/
def IsIn (m : Measure) (cell : Store.Cell) : Prop :=
  ∃ x : Binary64, cell = .real x ∧ x.same m.rounded = true

theorem isIn_stored {m : Measure} (h : m.IsFiniteReal) : m.IsIn m.stored :=
  ⟨_, rfl, Binary64.same_withoutZeroSign h.rounded⟩

end Measure

namespace Store

namespace Cell

theorem ofValue_int_eq_ok {position : ℕ} {i : ℤ} {cell : Cell}
    (h : ofValue position (.int i) = .ok cell) : cell = .integer i := by
  rw [ofValue] at h
  split_ifs at h
  exact (Except.ok.inj h).symm

theorem ofValue_measure_eq_ok {position : ℕ} {m : Measure} {cell : Cell} (hm : m.IsFiniteReal)
    (h : ofValue position (Report.measureValue m) = .ok cell) :
    cell = .real m.rounded := by
  cases m with
  | whole i => exact hm.elim
  | real x =>
    rcases x with ⟨n, k, e⟩ | n | _
    · cases h
      rfl
    · exact hm.elim
    · exact hm.elim

end Cell

namespace History

/-! ## Saving -/

/-- A report that is saved, and the identifier under which it is. -/
structure Saving where
  id : Text
  report : Report

namespace Saving

/-- The connection after a report has been saved. -/
def perform (c : Connection) (s : Saving) : Except StoreFault Connection :=
  (save s.id (Report.Draft.of s.report)).after c

/-- The row of a report. -/
def row (s : Saving) : ScanRow where
  id := s.id
  roots := s.report.roots.map .text
  filesScanned := .integer s.report.filesScanned
  filesSkipped := .integer s.report.filesSkipped
  violationCount := s.report.violationCount
  passed := s.report.passed
  duration := s.report.duration.stored
  timestamp := s.report.timestamp.stored

/-- Whether the measures of a report are finite double precision numbers. -/
structure IsTimed (s : Saving) : Prop where
  duration : s.report.duration.IsFiniteReal
  timestamp : s.report.timestamp.IsFiniteReal

end Saving

/-- Whether a row is that of a violation that was found by the scan with an identifier. -/
structure IsRowOf (scanId : Text) (row : ViolationRow) (v : Violation) : Prop where
  scanId : row.scanId = scanId
  root : row.root = .text v.root
  filePath : row.filePath = .text v.filePath
  line : row.line = .integer v.lineNumber
  column : row.column = .integer v.columnOffset
  lineText : row.lineText = .text v.lineText

theorem scanRow_eq_ok {s : Saving} (hs : s.IsTimed) {row : ScanRow}
    (h : scanRow s.id (Report.Draft.of s.report) = .ok row) : row = s.row := by
  simp only [scanRow, Report.Draft.of, bind_eq_ok] at h
  obtain ⟨scanned, hscanned, skipped, hskipped, duration, hduration, timestamp, htimestamp, h⟩ := h
  obtain rfl := Cell.ofValue_int_eq_ok hscanned
  obtain rfl := Cell.ofValue_int_eq_ok hskipped
  obtain rfl := Cell.ofValue_measure_eq_ok hs.duration hduration
  obtain rfl := Cell.ofValue_measure_eq_ok hs.timestamp htimestamp
  rw [Saving.row, Measure.stored, Measure.stored, ← Cell.asReal_real hs.duration.rounded,
    ← Cell.asReal_real hs.timestamp.rounded]
  have hrow := (Except.ok.inj h).symm
  rw [List.length_map, List.isEmpty_map] at hrow
  exact hrow

theorem violationRow_eq_ok {number : ℕ} {scanId : Text} {v : Violation} {row : ViolationRow}
    (h : violationRow number scanId (Report.ViolationDraft.of v) = .ok row) :
    row.id = number ∧ IsRowOf scanId row v := by
  simp only [violationRow, Report.ViolationDraft.of, bind_eq_ok] at h
  obtain ⟨root, ⟨⟩, path, ⟨⟩, line, hline, column, hcolumn, text, ⟨⟩, h⟩ := h
  obtain rfl := Cell.ofValue_int_eq_ok hline
  obtain rfl := Cell.ofValue_int_eq_ok hcolumn
  cases h
  exact ⟨rfl, rfl, rfl, rfl, rfl, rfl, rfl⟩

/-- The violations of a scan are put behind those that are there, in their order and with greater
numbers. -/
theorem addViolations_eq_ok {scanId : Text} {table table' : ViolationTable} {vs : List Violation}
    (h : addViolations scanId table (vs.map Report.ViolationDraft.of) = (table', .ok ())) :
    ∃ block, table'.rows = table.rows ++ block ∧ List.Forall₂ (IsRowOf scanId) block vs ∧
      block.Pairwise (fun a b => a.id < b.id) ∧
      (∀ row ∈ block, table.last < row.id ∧ row.id ≤ table'.last) ∧ table.last ≤ table'.last := by
  induction vs generalizing table with
  | nil =>
    cases h
    exact ⟨[], by simp, .nil, .nil, by simp, le_rfl⟩
  | cons v vs ih =>
    rw [List.map_cons, addViolations] at h
    split at h
    · cases h
    · next row hrow =>
      obtain ⟨hid, hv⟩ := violationRow_eq_ok hrow
      obtain ⟨block, hrows, hblock, hsorted, hbetween, hlast⟩ := ih h
      dsimp only at hbetween hlast
      refine ⟨row :: block, by simpa using hrows, .cons hv hblock, ?_, ?_, by omega⟩
      · refine .cons (fun other hother => ?_) hsorted
        have := (hbetween other hother).1
        omega
      · intro other hother
        rcases List.mem_cons.1 hother with rfl | hother
        · exact ⟨by omega, by omega⟩
        · have := hbetween other hother
          exact ⟨by omega, this.2⟩

theorem present_eq_ok {α : Type} {name : Text} {table : Option α} {t : α} :
    present name table = .ok t ↔ table = some t := by
  cases table <;> simp [present]

theorem save_eq_ok {s : Saving} {c c' : Connection} (hs : s.IsTimed) (h : s.perform c = .ok c') :
    ∃ rows table table', c.view.scans = some rows ∧ c.view.violations = some table ∧
      addViolations s.id table (s.report.violations.map Report.ViolationDraft.of) = (table', .ok ()) ∧
      c'.view.scans = some (rows ++ [s.row]) ∧ c'.view.violations = some table' := by
  obtain ⟨⟨⟩, h⟩ := Operation.after_eq_ok.1 h
  rw [save] at h
  split at h
  · cases h
  · next hrow =>
    obtain ⟨rows, hrows, hrow⟩ := bind_eq_ok.1 hrow
    obtain ⟨row, hscan, hrow⟩ := bind_eq_ok.1 hrow
    cases hrow
    obtain rfl := scanRow_eq_ok hs hscan
    dsimp only at h
    split at h
    · cases h
    · next table htable =>
      rcases hadd : addViolations s.id table (Report.Draft.of s.report).violations with
        ⟨table', f | ⟨⟩⟩
      · rw [hadd] at h
        cases h
      · rw [hadd] at h
        cases h
        exact ⟨_, table, table', present_eq_ok.1 hrows, htable, hadd, rfl, rfl⟩

/-! ## What the tables hold -/

/-- Whether a table has the violations of some reports that were saved, and no others. -/
structure Describes (table : ViolationTable) (history : List Saving) : Prop where
  each : ∀ s ∈ history, List.Forall₂ (IsRowOf s.id)
    (table.rows.filter fun row => row.scanId = s.id) s.report.violations
  known : ∀ row ∈ table.rows, ∃ s ∈ history, row.scanId = s.id
  sorted : table.rows.Pairwise fun a b => a.id < b.id
  bounded : ∀ row ∈ table.rows, row.id ≤ table.last

theorem scanId_of_forall₂ {scanId : Text} {block : List ViolationRow} {vs : List Violation}
    (h : List.Forall₂ (IsRowOf scanId) block vs) : ∀ row ∈ block, row.scanId = scanId := by
  induction h with
  | nil => simp
  | cons hv _ ih => simpa [hv.scanId] using ih

/-- One more report leaves the violations of the others as they are. -/
theorem Describes.add {table table' : ViolationTable} {history : List Saving} {s : Saving}
    (h : Describes table history) (hnew : ∀ s' ∈ history, s'.id ≠ s.id)
    (hadd : addViolations s.id table (s.report.violations.map Report.ViolationDraft.of) =
      (table', .ok ())) : Describes table' (history ++ [s]) := by
  obtain ⟨block, hrows, hblock, hsorted, hbetween, hlast⟩ := addViolations_eq_ok hadd
  have hscan := scanId_of_forall₂ hblock
  have hold : ∀ row ∈ table.rows, row.scanId ≠ s.id := by
    intro row hrow
    obtain ⟨s', hs', hid⟩ := h.known row hrow
    exact hid ▸ hnew s' hs'
  constructor
  · intro s' hs'
    rw [hrows, List.filter_append]
    rcases List.mem_append.1 hs' with hs' | hs'
    · have hnone : block.filter (fun row => row.scanId = s'.id) = [] := by
        refine List.filter_eq_nil_iff.2 fun row hrow => ?_
        simpa [hscan row hrow] using (hnew s' hs').symm
      rw [hnone, List.append_nil]
      exact h.each s' hs'
    · obtain rfl := List.mem_singleton.1 hs'
      have hnone : table.rows.filter (fun row => row.scanId = s'.id) = [] :=
        List.filter_eq_nil_iff.2 fun row hrow => by simpa using hold row hrow
      have hall : block.filter (fun row => row.scanId = s'.id) = block :=
        List.filter_eq_self.2 fun row hrow => by simpa using hscan row hrow
      rwa [hnone, hall]
  · intro row hrow
    rw [hrows] at hrow
    rcases List.mem_append.1 hrow with hrow | hrow
    · obtain ⟨s', hs', hid⟩ := h.known row hrow
      exact ⟨s', List.mem_append_left _ hs', hid⟩
    · exact ⟨s, by simp, hscan row hrow⟩
  · rw [hrows, List.pairwise_append]
    refine ⟨h.sorted, hsorted, fun a ha b hb => ?_⟩
    exact (h.bounded a ha).trans_lt (hbetween b hb).1
  · intro row hrow
    rw [hrows] at hrow
    rcases List.mem_append.1 hrow with hrow | hrow
    · exact (h.bounded row hrow).trans hlast
    · exact (hbetween row hrow).2

/-- Whether a connection sees the tables that some saved reports leave. -/
structure Holds (c : Connection) (history : List Saving) : Prop where
  scans : c.view.scans = some (history.map Saving.row)
  violations : ∃ table, c.view.violations = some table ∧ Describes table history

/-- Whether a connection sees no scan and no violation. -/
structure IsEmpty (c : Connection) : Prop where
  scans : c.view.scans = some []
  violations : ∃ last, c.view.violations = some ⟨[], last⟩

section Run

variable {c c' : Connection} {history : List Saving}

theorem holds_nil (h : IsEmpty c) : Holds c [] := by
  obtain ⟨last, hlast⟩ := h.violations
  exact ⟨h.scans, ⟨[], last⟩, hlast, by simp, by simp, .nil, by simp⟩

theorem Holds.save (h : Holds c history) {s : Saving} (hs : s.IsTimed)
    (hnew : ∀ s' ∈ history, s'.id ≠ s.id) (hsave : s.perform c = .ok c') :
    Holds c' (history ++ [s]) := by
  obtain ⟨rows, table, table', hrows, htable, hadd, hrows', htable'⟩ := save_eq_ok hs hsave
  obtain ⟨table₀, htable₀, hdescribes⟩ := h.violations
  obtain rfl := Option.some.inj (htable.symm.trans htable₀)
  obtain rfl := Option.some.inj (hrows.symm.trans h.scans)
  exact ⟨by rw [hrows', List.map_append, List.map_singleton], table', htable',
    hdescribes.add hnew hadd⟩

/-- What a whole run of saves leaves. -/
theorem holds_of_run (h : IsEmpty c) (htimed : ∀ s ∈ history, s.IsTimed)
    (hids : (history.map Saving.id).Nodup) (hrun : history.foldlM Saving.perform c = .ok c') :
    Holds c' history := by
  induction history using List.reverseRecOn generalizing c' with
  | nil =>
    cases hrun
    exact holds_nil h
  | append_singleton history s ih =>
    rw [List.foldlM_append] at hrun
    obtain ⟨c₁, hrun, hsave⟩ := bind_eq_ok.1 hrun
    rw [List.foldlM_cons] at hsave
    obtain ⟨c₂, hsave, hlast⟩ := bind_eq_ok.1 hsave
    cases hlast
    rw [List.map_append, List.nodup_append'] at hids
    obtain ⟨hids, -, hdisjoint⟩ := hids
    have hbefore := ih (fun s' hs' => htimed s' (List.mem_append_left _ hs')) hids hrun
    refine hbefore.save (htimed s (by simp)) (fun s' hs' hid => ?_) hsave
    exact hdisjoint (List.mem_map_of_mem hs') (by simp [hid])

/-! ## What is got -/

theorem find?_row {s : Saving} (hids : (history.map Saving.id).Nodup) (hs : s ∈ history) :
    (history.map Saving.row).find? (fun row => row.id = s.id) = some s.row := by
  induction history with
  | nil => cases hs
  | cons s' history ih =>
    rw [List.map_cons, List.nodup_cons] at hids
    rw [List.map_cons, List.find?_cons]
    rcases List.mem_cons.1 hs with rfl | hs
    · simp [Saving.row]
    · have hne : s'.id ≠ s.id := fun hid => hids.1 (hid ▸ List.mem_map_of_mem hs)
      simpa [Saving.row, hne] using ih hids.2 hs

/-- A report is got back with its violations in their order, whatever else was saved. -/
theorem Holds.get_eq (h : Holds c history) (hids : (history.map Saving.id).Nodup) {s : Saving}
    (hs : s ∈ history) : ∃ rows, get s.id c = (c, .ok (some (s.row, rows))) ∧
      List.Forall₂ (IsRowOf s.id) rows s.report.violations ∧
      rows.Pairwise fun a b => a.id < b.id := by
  obtain ⟨table, htable, hdescribes⟩ := h.violations
  refine ⟨table.rows.filter fun row => row.scanId = s.id, ?_, hdescribes.each s hs,
    hdescribes.sorted.filter _⟩
  rw [get, Operation.ask, h.scans, htable]
  simp only [present, bind, Except.bind, find?_row hids hs]
  rfl

/-! ## Order -/

/-- Whether a row has a finite double precision number for its time. -/
def IsDated (row : ScanRow) : Prop := ∃ x : Binary64, row.timestamp = .real x ∧ x.IsFiniteDouble

/-- The time of a row in units of the least exponent. -/
def time (row : ScanRow) : ℤ :=
  match row.timestamp with
  | .real x => x.count
  | _ => 0

theorem lt_timestamp {a b : ScanRow} (ha : IsDated a) (hb : IsDated b) :
    Cell.lt a.timestamp b.timestamp = decide (time a < time b) := by
  obtain ⟨x, hx, hx'⟩ := ha
  obtain ⟨y, hy, hy'⟩ := hb
  rw [time, time, hx, hy]
  exact Binary64.lt_iff hx' hy'

theorem latestFirst_eq {rows : List ScanRow} (hdated : ∀ row ∈ rows, IsDated row) :
    latestFirst rows = rows.mergeSort fun a b => decide (time b ≤ time a) := by
  have hsame := @List.map_mergeSort _ _ (fun a b => !Cell.lt a.timestamp b.timestamp)
    (fun a b => decide (time b ≤ time a)) id rows fun a ha b hb => by
      by_cases hlt : time a < time b
      · simp [lt_timestamp (hdated a ha) (hdated b hb), hlt]
      · simp [lt_timestamp (hdated a ha) (hdated b hb), hlt, not_lt.1 hlt]
  rwa [List.map_id, List.map_id] at hsame

/-- Rows with different times are put from the latest to the earliest. -/
theorem latestFirst_pairwise {rows : List ScanRow} (hdated : ∀ row ∈ rows, IsDated row)
    (htimes : rows.Pairwise fun a b => time a ≠ time b) :
    (latestFirst rows).Pairwise fun a b => Cell.lt b.timestamp a.timestamp = true := by
  have hperm : (latestFirst rows).Perm rows := List.mergeSort_perm rows _
  have hdistinct : (latestFirst rows).Pairwise fun a b => time a ≠ time b :=
    (hperm.pairwise_iff fun h => h.symm).2 htimes
  have hsorted : (latestFirst rows).Pairwise fun a b => time b ≤ time a := by
    have hpairwise := @List.pairwise_mergeSort _ (fun a b : ScanRow => decide (time b ≤ time a))
      (fun a b d hab hbd => by simp at *; omega) (fun a b => by simp; omega) rows
    rw [← latestFirst_eq hdated] at hpairwise
    exact hpairwise.imp of_decide_eq_true
  refine (hsorted.and hdistinct).imp_of_mem fun {a b} ha hb h => ?_
  rw [lt_timestamp (hdated b (hperm.mem_iff.1 hb)) (hdated a (hperm.mem_iff.1 ha)),
    decide_eq_true_eq]
  omega

theorem Saving.IsTimed.isDated {s : Saving} (hs : s.IsTimed) : IsDated s.row :=
  ⟨_, rfl, Binary64.isFiniteDouble_withoutZeroSign hs.timestamp.rounded⟩

/-- Whether two reports were made at different times. -/
def Differ (s s' : Saving) : Prop :=
  s.report.timestamp.rounded.same s'.report.timestamp.rounded = false

theorem time_row (s : Saving) : time s.row = s.report.timestamp.rounded.count :=
  Binary64.count_withoutZeroSign _

theorem time_ne {s s' : Saving} (hs : s.IsTimed) (hs' : s'.IsTimed) (h : Differ s s') :
    time s.row ≠ time s'.row := by
  rw [Differ, Binary64.same_iff hs.timestamp.rounded hs'.timestamp.rounded, decide_eq_false_iff_not]
    at h
  rwa [time_row, time_row]

/-! ## Pages -/

theorem list_eq (h : c.view.scans = some (history.map Saving.row)) {limit offset : ℤ}
    (hlimit : Cell.holdsInteger limit = true) (hoffset : Cell.holdsInteger offset = true) :
    list limit offset c = (c, .ok (page limit offset (latestFirst (history.map Saving.row)))) := by
  rw [list, Operation.ask, h]
  simp only [present, Cell.ofValue, hlimit, hoffset, if_true, bind, Except.bind]
  rfl

theorem flatten_pages {α : Type} (xs : List α) {limit : ℤ} (hlimit : 1 ≤ limit) (n : ℕ) :
    ((List.range n).map fun (k : ℕ) => page limit (k * limit) xs).flatten =
      xs.take (n * limit.toNat) := by
  induction n with
  | zero => simp
  | succ n ih =>
    have hoffset : ((n : ℤ) * limit).toNat = n * limit.toNat := by
      lift limit to ℕ using by omega
      exact_mod_cast rfl
    rw [List.range_succ, List.map_append, List.flatten_append, ih, Nat.succ_mul, List.take_add]
    simp [page, hoffset, not_lt.2 (by omega : 0 ≤ limit)]

theorem holdsInteger_of_nonneg {i : ℤ} (hnonneg : 0 ≤ i) (hgreatest : i ≤ Cell.greatestInteger) :
    Cell.holdsInteger i = true := by
  rw [Cell.holdsInteger, Bool.and_eq_true, decide_eq_true_eq, decide_eq_true_eq]
  exact ⟨le_trans (by decide) hnonneg, hgreatest⟩

/-- Whether the first pages of some length can all be asked for and, put together, are some rows. -/
def PagesAre (c : Connection) (limit : ℤ) (n : ℕ) (rows : List ScanRow) : Prop :=
  ∃ pages, (List.range n).mapM (fun (k : ℕ) => (list limit (k * limit) c).2) = .ok pages ∧
    pages.flatten = rows

/-- The first pages of the list are as many scans as they have room for. -/
theorem Holds.pages_eq (h : Holds c history) {limit : ℤ} (hlimit : 1 ≤ limit)
    (hgreatest : limit ≤ Cell.greatestInteger) {n : ℕ}
    (hoffsets : ∀ k < n, (k : ℤ) * limit ≤ Cell.greatestInteger) :
    PagesAre c limit n ((latestFirst (history.map Saving.row)).take (n * limit.toNat)) := by
  refine ⟨_, mapM_eq_ok_map fun k hk => ?_, flatten_pages _ hlimit n⟩
  have hoffset := hoffsets k (List.mem_range.1 hk)
  rw [list_eq h.scans (holdsInteger_of_nonneg (by omega) hgreatest)
    (holdsInteger_of_nonneg (by positivity) hoffset)]

/-- There are enough pages for all scans. -/
theorem Holds.exists_pages_eq (h : Holds c history) {limit : ℤ} (hlimit : 1 ≤ limit)
    (hgreatest : limit ≤ Cell.greatestInteger)
    (hlength : (history.length : ℤ) ≤ Cell.greatestInteger) :
    ∃ n, PagesAre c limit n (latestFirst (history.map Saving.row)) := by
  lift limit to ℕ using by omega
  have hpos : 0 < limit := by omega
  refine ⟨history.length / limit + 1, ?_⟩
  have hoffsets : ∀ k < history.length / limit + 1, (k : ℤ) * limit ≤ Cell.greatestInteger := by
    intro k hk
    have hle : k * limit ≤ history.length :=
      (Nat.le_div_iff_mul_le hpos).1 (Nat.lt_succ_iff.1 hk)
    exact le_trans (by exact_mod_cast hle) hlength
  have hroom : (latestFirst (history.map Saving.row)).length ≤
      (history.length / limit + 1) * limit := by
    rw [latestFirst, List.length_mergeSort, List.length_map, mul_comm]
    exact (Nat.lt_mul_div_succ _ hpos).le
  have hpages := h.pages_eq hlimit hgreatest hoffsets
  rwa [Int.toNat_natCast, List.take_of_length_le hroom] at hpages

end Run

/-! ## A whole run -/

/-- After any saves under different identifiers of reports made at different times, each report is got
back under its identifier, with its violations in their order.  The list goes from the latest to the
earliest and has each of them once, and pages of any length that can be asked for make it up. -/
theorem saved_after {c c' : Connection} {history : List Saving} (hempty : IsEmpty c)
    (htimed : ∀ s ∈ history, s.IsTimed) (hids : (history.map Saving.id).Nodup)
    (htimes : history.Pairwise Differ) (hrun : history.foldlM Saving.perform c = .ok c') :
    (∀ s ∈ history,
      s.report.duration.IsIn s.row.duration ∧ s.report.timestamp.IsIn s.row.timestamp ∧
      Json.read (Json.text (.list s.row.roots)) = some (.list s.row.roots) ∧
      ∃ rows, get s.id c' = (c', .ok (some (s.row, rows))) ∧
        List.Forall₂ (IsRowOf s.id) rows s.report.violations ∧
        rows.Pairwise fun a b => a.id < b.id) ∧
    ∃ listed : List ScanRow, listed.Perm (history.map Saving.row) ∧
      (listed.Pairwise fun a b => Cell.lt b.timestamp a.timestamp = true) ∧
      ∀ limit, 1 ≤ limit → limit ≤ Cell.greatestInteger →
        (∀ n : ℕ, (∀ k < n, (k : ℤ) * limit ≤ Cell.greatestInteger) →
          PagesAre c' limit n (listed.take (n * limit.toNat))) ∧
        ((history.length : ℤ) ≤ Cell.greatestInteger → ∃ n, PagesAre c' limit n listed) := by
  have h := holds_of_run hempty htimed hids hrun
  refine ⟨fun s hs => ⟨Measure.isIn_stored (htimed s hs).duration,
      Measure.isIn_stored (htimed s hs).timestamp, Json.read_text (.list fun x hx => ?_),
      h.get_eq hids hs⟩,
    latestFirst (history.map Saving.row), List.mergeSort_perm _ _, latestFirst_pairwise ?_ ?_,
    fun limit hlimit hgreatest => ⟨fun n hoffsets => h.pages_eq hlimit hgreatest hoffsets,
      h.exists_pages_eq hlimit hgreatest⟩⟩
  · obtain ⟨t, -, rfl⟩ := List.mem_map.1 hx
    exact .text t
  · intro row hrow
    obtain ⟨s, hs, rfl⟩ := List.mem_map.1 hrow
    exact (htimed s hs).isDated
  · rw [List.pairwise_map]
    exact htimes.imp_of_mem fun hs hs' hdiffer => time_ne (htimed _ hs) (htimed _ hs') hdiffer

/-- A connection that sees no scan. -/
def emptyHistory : Connection :=
  ⟨{ Tables.blank with scans := some [], violations := some ⟨[], 0⟩ }, none⟩

theorem isEmpty_emptyHistory : IsEmpty emptyHistory := ⟨rfl, 0, rfl⟩

/-- A report of some violations in one file, made one second or two after the beginning. -/
def smallSaving (id : String) (violations : List Violation) (late : Bool) : Saving :=
  ⟨id.toList, ⟨violations, 1, 0, [], ["r".toList], .real .zero,
    .real (.finite false (2 ^ 52) (if late then -51 else -52))⟩⟩

theorem smallSaving_isTimed (id : String) (violations : List Violation) (late : Bool) :
    (smallSaving id violations late).IsTimed := by
  constructor
  · exact ⟨by decide, le_rfl, by decide, .inr rfl⟩
  · cases late
    · exact ⟨by decide, by decide, by decide, .inl (by decide)⟩
    · exact ⟨by decide, by decide, by decide, .inl (by decide)⟩

/-- Two scans of a file with two links in a line, between which one of them has gone. -/
theorem saved_after_two :
    let first : Violation := ⟨"x.txt".toList, 7, 4, "See http://a and http://b".toList, "r".toList⟩
    let second : Violation := { first with columnOffset := 17 }
    let history := [smallSaving "a" [first, second] false, smallSaving "b" [second] true]
    ∃ c', history.foldlM Saving.perform emptyHistory = .ok c' ∧
      (∃ rows, get "a".toList c' =
          (c', .ok (some ((smallSaving "a" [first, second] false).row, rows))) ∧
        List.Forall₂ (IsRowOf "a".toList) rows [first, second]) ∧
      ∃ listed n, listed.Perm (history.map Saving.row) ∧ PagesAre c' 1 n listed := by
  intro first second history
  have htimed : ∀ s ∈ history, s.IsTimed := by
    simp only [history, List.mem_cons, List.not_mem_nil, or_false, forall_eq_or_imp, forall_eq]
    exact ⟨smallSaving_isTimed _ _ _, smallSaving_isTimed _ _ _⟩
  have htimes : history.Pairwise Differ := .cons (by simp; rfl) (.cons (by simp) .nil)
  obtain ⟨c', hrun⟩ : ∃ c', history.foldlM Saving.perform emptyHistory = .ok c' := ⟨_, rfl⟩
  obtain ⟨hgot, listed, hperm, -, hpages⟩ :=
    saved_after isEmpty_emptyHistory htimed (by simp [history, smallSaving]) htimes hrun
  obtain ⟨-, -, -, rows, hget, hrows, -⟩ := hgot _ List.mem_cons_self
  obtain ⟨n, hn⟩ := (hpages 1 le_rfl (by decide)).2 (by decide)
  exact ⟨c', hrun, ⟨rows, hget, hrows⟩, listed, n, hperm, hn⟩

/-- A page of more scans than a cell can count cannot be asked for, so no pages of that length make up
the list. -/
theorem pages_of_hugeLimit :
    ∃ c', [smallSaving "a" [] false].foldlM Saving.perform emptyHistory = .ok c' ∧
      (1 : ℤ) ≤ 2 ^ 63 ∧ (list (2 ^ 63) 0 c').2 = .error .tooLarge ∧
      ¬∃ n, PagesAre c' (2 ^ 63) n [(smallSaving "a" [] false).row] := by
  refine ⟨_, rfl, by norm_num, rfl, ?_⟩
  rintro ⟨n, pages, hpages, hflatten⟩
  cases n with
  | zero =>
    cases hpages
    cases hflatten
  | succ n =>
    rw [List.range_succ_eq_map, List.mapM_cons] at hpages
    cases hpages

end History

end Store

end InsecureLinks
