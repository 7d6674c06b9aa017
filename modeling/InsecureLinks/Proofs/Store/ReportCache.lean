import Mathlib
import InsecureLinks.Proofs.Document.Json
import InsecureLinks.Proofs.Report.Draft
import InsecureLinks.Proofs.Store.Connection

/-!
# Reports kept for reuse

Whatever is done with the reports that are kept, what is got under a key is the report that was last put
under it since all were last forgotten, and nothing if none was (`answers_after`).  A report is kept as
JSON, and its document is got back from its text if its numbers can be written (`isJson_document`).
-/

namespace InsecureLinks

/-! ## Reports as JSON -/

/-- Whether a measure is a whole number or a finite one. -/
def Measure.IsFinite : Measure → Prop
  | whole _ => True
  | real x => x.IsFiniteDouble

namespace Report

/-- Whether a report can be kept: its whole numbers can be written, and its measures are finite. -/
structure IsWritable (r : Report) : Prop where
  numbers : (Draft.of r).toValue.isWritable = true
  duration : r.duration.IsFinite
  timestamp : r.timestamp.IsFinite

theorem areWritable_iff {xs : List Value} :
    Value.areWritable xs = true ↔ ∀ x ∈ xs, x.isWritable = true := by
  induction xs with
  | nil => simp [Value.areWritable]
  | cons x xs ih => simp [Value.areWritable, ih]

open Json (IsJson)

theorem isJson_int {i : ℤ} (h : (Value.int i).isWritable = true) : IsJson (.int i) := by
  rw [Value.isWritable, Numeral.isWritable, decide_eq_true_eq, Decimal.tenTo_eq] at h
  exact .int h

theorem isJson_measureValue {m : Measure} (h : m.IsFinite)
    (hnumber : (measureValue m).isWritable = true) : IsJson (measureValue m) := by
  cases m with
  | whole i => exact isJson_int hnumber
  | real x => exact .real (Binary64.IsFiniteDouble.isDouble h)

/-- A map with a value under each of some names is one that JSON has if the values are. -/
theorem isJson_map {entries : List (String × Value)} (hkeys : (entries.map Prod.fst).Nodup)
    (h : ∀ p ∈ entries, IsJson p.2) : IsJson (.map (entries.map fun p => keyed p.1 p.2)) := by
  have hnodup : ((entries.map fun p => (p.1.toList, p.2)).map Prod.fst).Nodup := by
    have hmap := List.Nodup.map (f := String.toList) (fun _ _ h => String.toList_inj.1 h) hkeys
    rw [List.map_map] at hmap ⊢
    exact hmap
  have hmap := IsJson.map hnodup (by
    intro p hp
    obtain ⟨q, hq, rfl⟩ := List.mem_map.1 hp
    exact h q hq)
  rwa [List.map_map] at hmap

theorem isJson_violation {v : Violation}
    (hwritable : (ViolationDraft.of v).toValue.isWritable = true) :
    IsJson (ViolationDraft.of v).toValue := by
  simp only [ViolationDraft.toValue, ViolationDraft.of, keyed, Value.isWritable,
    Value.entriesAreWritable, Bool.true_and, Bool.and_true, Bool.and_eq_true] at hwritable
  refine @isJson_map [("file_path", .text v.filePath), ("line_number", .int v.lineNumber),
    ("column_offset", .int v.columnOffset), ("line_text", .text v.lineText),
    ("root", .text v.root)] (by simp) ?_
  simp only [List.mem_cons, List.not_mem_nil, or_false, forall_eq_or_imp, forall_eq]
  exact ⟨.text _, isJson_int hwritable.1, isJson_int hwritable.2, .text _, .text _⟩

theorem isJson_diagnostic {d : Diagnostic}
    (hwritable : (DiagnosticDraft.of d).toValue.isWritable = true) :
    IsJson (DiagnosticDraft.of d).toValue := by
  simp only [DiagnosticDraft.toValue, DiagnosticDraft.of, keyed, Value.isWritable,
    Value.entriesAreWritable, Bool.true_and, Bool.and_true] at hwritable
  have hline : IsJson (lineValue d.lineNumber) := by
    rcases h : d.lineNumber with _ | n
    · exact .null
    · rw [h] at hwritable
      exact isJson_int hwritable
  refine @isJson_map [("kind", .text d.kind.name), ("level", .text d.level.name),
    ("path", .text d.path), ("message", .text d.message), ("line_number", lineValue d.lineNumber)]
    (by simp) ?_
  simp only [List.mem_cons, List.not_mem_nil, or_false, forall_eq_or_imp, forall_eq]
  exact ⟨.text _, .text _, .text _, .text _, hline⟩

/-- The document of a report that can be kept is one that JSON has. -/
theorem isJson_document {r : Report} (h : r.IsWritable) : IsJson (Draft.of r).toValue := by
  have hnumbers := h.numbers
  simp only [Draft.toValue, Draft.of, keyed, Value.isWritable, Value.entriesAreWritable,
    Bool.true_and, Bool.and_true, Bool.and_eq_true, areWritable_iff] at hnumbers
  obtain ⟨hviolations, hscanned, hskipped, hdiagnostics, -, hduration, htimestamp⟩ := hnumbers
  have hdocuments : IsJson (.list ((r.violations.map .of).map ViolationDraft.toValue)) := by
    refine .list fun x hx => ?_
    have hx' := hviolations x hx
    rw [List.map_map] at hx
    obtain ⟨v, -, rfl⟩ := List.mem_map.1 hx
    exact isJson_violation hx'
  have hnotes : IsJson (.list ((r.diagnostics.map .of).map DiagnosticDraft.toValue)) := by
    refine .list fun x hx => ?_
    have hx' := hdiagnostics x hx
    rw [List.map_map] at hx
    obtain ⟨d, -, rfl⟩ := List.mem_map.1 hx
    exact isJson_diagnostic hx'
  have hroots : IsJson (.list (r.roots.map .text)) := by
    refine .list fun x hx => ?_
    obtain ⟨t, -, rfl⟩ := List.mem_map.1 hx
    exact .text t
  refine @isJson_map [("violations", .list ((r.violations.map .of).map ViolationDraft.toValue)),
    ("files_scanned", .int r.filesScanned), ("files_skipped", .int r.filesSkipped),
    ("diagnostics", .list ((r.diagnostics.map .of).map DiagnosticDraft.toValue)),
    ("roots", .list (r.roots.map .text)), ("duration", measureValue r.duration),
    ("timestamp", measureValue r.timestamp)] (by simp) ?_
  simp only [List.mem_cons, List.not_mem_nil, or_false, forall_eq_or_imp, forall_eq]
  exact ⟨hdocuments, isJson_int hscanned, isJson_int hskipped, hnotes, hroots,
    isJson_measureValue h.duration hduration, isJson_measureValue h.timestamp htimestamp⟩

/-- The report that a JSON text holds. -/
def ofJson? (t : Text) : Option Report :=
  (Json.read t).bind fun x => (Draft.ofValue x >>= Draft.complete).toOption

/-- A report that can be kept is got back from its JSON text. -/
theorem ofJson?_text {r : Report} (h : r.IsWritable) :
    ofJson? (Json.text (Draft.of r).toValue) = some r := by
  rw [ofJson?, Json.read_text (isJson_document h), Option.bind_some, ofValue_toValue_complete]
  rfl

end Report

namespace Store.ReportCache

/-! ## What is done with them -/

/-- Something that is done with the reports that are kept. -/
inductive Action
  | put (key : Text) (r : Report)
  | clear
  | get (key : Text)

namespace Action

/-- The connection after an action. -/
def perform (c : Connection) : Action → Except StoreFault Connection
  | put key r => (ReportCache.put key (Report.Draft.of r).toValue).after c
  | clear => ReportCache.clear.after c
  | get key => (ReportCache.get key).after c

/-- Whether an action can change what is got under a key. -/
def touches (key : Text) : Action → Bool
  | put k _ => k = key
  | clear => true
  | get _ => false

/-- The report that an action puts under its key. -/
def report? : Action → Option Report
  | put _ r => some r
  | _ => none

end Action

/-- The report that was last put under a key since all were last forgotten. -/
def last? (key : Text) (history : List Action) : Option Report :=
  (history.reverse.find? (Action.touches key)).bind Action.report?

@[simp] theorem last?_nil (key : Text) : last? key [] = none := rfl

theorem last?_concat (key : Text) (history : List Action) (a : Action) :
    last? key (history ++ [a]) = if a.touches key then a.report? else last? key history := by
  rw [last?, List.reverse_append, List.reverse_singleton, List.singleton_append, List.find?_cons]
  split
  · next h => rw [h]; rfl
  · next h => rw [h]; rfl

theorem mem_of_last? {key : Text} {history : List Action} {r : Report}
    (h : last? key history = some r) : .put key r ∈ history := by
  rw [last?, Option.bind_eq_some_iff] at h
  obtain ⟨a, hfind, hreport⟩ := h
  have hmem := List.mem_reverse.1 (List.mem_of_find?_eq_some hfind)
  have htouches := List.find?_some hfind
  cases a with
  | put k r' =>
    obtain rfl : k = key := of_decide_eq_true htouches
    cases hreport
    exact hmem
  | clear => cases hreport
  | get k => cases hreport

/-! ## What is kept -/

theorem find?_insert_of_ne {key key' : Text} (h : key' ≠ key) (report : Value)
    (rows : List CacheRow) : find? key (insert key' report rows) = find? key rows := by
  have hrest : (rows.filter fun row => row.key ≠ key').find? (fun row => row.key = key) =
      rows.find? fun row => row.key = key := by
    rw [List.find?_filter]
    congr 1
    funext row
    by_cases hrow : row.key = key
    · simp [hrow, Ne.symm h]
    · simp [hrow]
  rw [find?, find?, insert, List.find?_append, hrest]
  simp [h]

/-- Whether what a connection sees is what a history leaves. -/
def Keeps (c : Connection) (history : List Action) : Prop :=
  ∃ rows, c.view.cache = some rows ∧
    ∀ key, find? key rows = (last? key history).map fun r => (Report.Draft.of r).toValue

section Keeps

variable {c : Connection} {history : List Action}

theorem keeps_nil (h : c.view.cache = some []) : Keeps c [] := ⟨[], h, fun _ => rfl⟩

/-- Each action succeeds, and leaves what the history with it leaves. -/
theorem Keeps.perform (h : Keeps c history) (a : Action) :
    ∃ c', a.perform c = .ok c' ∧ Keeps c' (history ++ [a]) := by
  obtain ⟨rows, hcache, hfind⟩ := h
  simp only [Keeps, last?_concat]
  cases a with
  | put key r =>
    refine ⟨_, by simp [Action.perform, Operation.after, put, Operation.change, hcache, present]; rfl,
      insert key (Report.Draft.of r).toValue rows, rfl, fun key' => ?_⟩
    rcases eq_or_ne key key' with rfl | hne
    · simp [Action.touches, Action.report?, find?_insert]
    · simp [Action.touches, hne, find?_insert_of_ne hne, hfind]
  | clear =>
    exact ⟨_, by simp [Action.perform, Operation.after, clear, Operation.change, hcache, present]; rfl,
      [], rfl, fun _ => rfl⟩
  | get key =>
    exact ⟨c, by simp [Action.perform, Operation.after, get, Operation.ask, hcache, present]; rfl,
      rows, hcache, hfind⟩

/-- A whole history succeeds, and leaves what it should. -/
theorem exists_keeps (h : c.view.cache = some []) (history : List Action) :
    ∃ c', history.foldlM Action.perform c = .ok c' ∧ Keeps c' history := by
  induction history using List.reverseRecOn with
  | nil => exact ⟨c, rfl, keeps_nil h⟩
  | append_singleton history a ih =>
    obtain ⟨c', hrun, hkeeps⟩ := ih
    obtain ⟨c'', hstep, hkeeps'⟩ := hkeeps.perform a
    refine ⟨c'', ?_, hkeeps'⟩
    rw [List.foldlM_append, hrun]
    calc [a].foldlM Action.perform c' = a.perform c' := by simp
      _ = .ok c'' := hstep

end Keeps

/-! ## What is got -/

/-- Whether what is got under a key is a report or nothing.  A report is got as a document, which
holds it, and so does the JSON text of the document. -/
def Answers (c : Connection) (key : Text) : Option Report → Prop
  | none => get key c = (c, .ok none)
  | some r => ∃ d, get key c = (c, .ok (some d)) ∧
      (Report.Draft.ofValue d >>= Report.Draft.complete) = .ok r ∧
      Report.ofJson? (Json.text d) = some r

/-- Where no report is kept to begin with, everything that is done succeeds, and then the report that
is got under a key is the one that was last put under it since all were last forgotten. -/
theorem answers_after {c : Connection} (hcache : c.view.cache = some []) {history : List Action}
    (hwritable : ∀ key r, .put key r ∈ history → r.IsWritable) :
    ∃ c', history.foldlM Action.perform c = .ok c' ∧ ∀ key, Answers c' key (last? key history) := by
  obtain ⟨c', hrun, rows, hrows, hfind⟩ := exists_keeps hcache history
  refine ⟨c', hrun, fun key => ?_⟩
  have hget : get key c' = (c', .ok (find? key rows)) := by
    simp [get, Operation.ask, hrows, present]
  rw [hfind] at hget
  rcases hlast : last? key history with _ | r
  · rw [hlast] at hget
    exact hget
  · rw [hlast] at hget
    exact ⟨_, hget, Report.ofValue_toValue_complete r,
      Report.ofJson?_text (hwritable key r (mem_of_last? hlast))⟩

/-- A connection on which no report is kept. -/
def emptyConnection : Connection := ⟨{ Tables.blank with cache := some [] }, none⟩

/-- A report with a violation and a diagnostic, made in a second and a half. -/
def smallReport : Report where
  violations := [⟨"a.txt".toList, 3, 0, "see http://é".toList, "r".toList⟩]
  filesScanned := 2
  filesSkipped := 1
  diagnostics := [⟨.binarySkip, .info, "b.bin".toList, "skipped".toList, none⟩]
  roots := ["r".toList]
  duration := .real (.finite false (3 * 2 ^ 51) (-52))
  timestamp := .whole 1700000000

/-- What is put under a key before all are forgotten is lost, and what is put after that is got. -/
theorem answers_after_clear :
    let history : List Action := [.put "k".toList smallReport, .put "l".toList smallReport, .clear,
      .put "k".toList { smallReport with violations := [] }, .get "l".toList]
    emptyConnection.view.cache = some [] ∧
      (∀ key r, .put key r ∈ history → r.IsWritable) ∧
      ∃ c', history.foldlM Action.perform emptyConnection = .ok c' ∧
        Answers c' "k".toList (some { smallReport with violations := [] }) ∧
        Answers c' "l".toList none := by
  intro history
  have hwritable : ∀ key r, .put key r ∈ history → r.IsWritable := by
    intro key r hput
    have hr : r = smallReport ∨ r = { smallReport with violations := [] } := by
      simp only [history, List.mem_cons, Action.put.injEq, reduceCtorEq, List.not_mem_nil, or_false,
        false_or] at hput
      tauto
    have hduration : (Measure.real (.finite false (3 * 2 ^ 51) (-52))).IsFinite := by
      simp [Measure.IsFinite, Binary64.IsFiniteDouble, Binary64.IsDouble, Binary64.leastExponent,
        Binary64.greatestExponent]
    rcases hr with rfl | rfl
    · exact ⟨by decide +kernel, hduration, trivial⟩
    · exact ⟨by decide +kernel, hduration, trivial⟩
  obtain ⟨c', hrun, hanswers⟩ := answers_after (c := emptyConnection) rfl hwritable
  exact ⟨rfl, hwritable, c', hrun, hanswers "k".toList, hanswers "l".toList⟩

end Store.ReportCache

end InsecureLinks
