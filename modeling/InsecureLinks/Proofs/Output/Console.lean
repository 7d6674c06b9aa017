import Mathlib
import InsecureLinks.Output.Html
import InsecureLinks.Proofs.Number.Numeral
import InsecureLinks.Proofs.Outcome
import InsecureLinks.Proofs.Output.Checkstyle

/-!
# Showing a report

A report is shown if its numbers can be written: the lines and columns of its violations, the lines of
its diagnostics, and how many files were scanned and skipped (`report_of_isShort`).
-/

namespace InsecureLinks

/-- Whether the line of a diagnostic, if there is one, has no more digits than can be written. -/
def Diagnostic.IsShort (d : Diagnostic) : Prop := ∀ n ∈ d.lineNumber, Numeral.IsShort n

/-- Whether the numbers of a report, apart from those of its violations, have no more digits than can be
written. -/
structure Report.IsShort (r : Report) : Prop where
  scanned : Numeral.IsShort r.filesScanned
  skipped : Numeral.IsShort r.filesSkipped
  diagnostics : ∀ d ∈ r.diagnostics, d.IsShort

namespace Console

/-! ## Rows of a table -/

section Row

variable {v : Violation} {r : Report}

theorem row_of_isShort (severalRoots : Bool) (h : v.IsShort) :
    ∃ cells, row severalRoots v = .ok cells := by
  have hline : Numeral.write v.lineNumber = .ok _ := Numeral.write_of_isShort h.line
  have hcolumn : Numeral.write v.column = .ok _ := Numeral.write_of_isShort h.column
  exact ⟨_, by rw [row, hline, hcolumn]; rfl⟩

theorem row_of_not_isShort (severalRoots : Bool) (h : ¬v.IsShort) :
    row severalRoots v = .error .tooManyDigits := by
  by_cases hline : Numeral.IsShort v.lineNumber
  · have hcolumn : ¬Numeral.IsShort v.column := fun hcolumn => h ⟨hline, hcolumn⟩
    rw [row, Numeral.write_of_isShort hline, Numeral.write_of_not_isShort hcolumn]
    rfl
  · rw [row, Numeral.write_of_not_isShort hline]
    rfl

theorem table_of_isShort (h : ∀ v ∈ r.violations, v.IsShort) : ∃ cells, table r = .ok cells := by
  obtain ⟨rows, hrows, -⟩ := mapM_eq_ok fun v hv => row_of_isShort (1 < r.roots.length) (h v hv)
  exact ⟨_, by rw [table, hrows]; rfl⟩

theorem table_of_not_isShort (hv : v ∈ r.violations) (h : ¬v.IsShort) :
    table r = .error .tooManyDigits := by
  rcases htable : table r with ⟨⟩ | t
  · rfl
  · obtain ⟨rows, hrows, -⟩ := bind_eq_ok.1 htable
    obtain ⟨cells, hcells⟩ := exists_of_mapM hrows v hv
    rw [row_of_not_isShort _ h] at hcells
    cases hcells

end Row

/-! ## A whole report -/

theorem diagnosticLine_of_isShort {d : Diagnostic} (h : d.IsShort) :
    ∃ line, diagnosticLine d = .ok line := by
  obtain ⟨place, hplace⟩ : ∃ place, d.place = .ok place := by
    rw [Diagnostic.place]
    rcases hline : d.lineNumber with _ | n
    · exact ⟨_, rfl⟩
    · dsimp only
      rw [Numeral.write_of_isShort (h n hline)]
      exact ⟨_, rfl⟩
  rw [diagnosticLine, hplace]
  exact ⟨_, rfl⟩

section Report

variable {r : Report} (hviolations : ∀ v ∈ r.violations, v.IsShort) (hshort : r.IsShort)
  {x : Binary64} (hduration : r.duration = .real x)

include hviolations in
theorem violationsPrint_of_isShort : ∃ print, violationsPrint r = .ok print := by
  rw [violationsPrint]
  split_ifs
  · exact ⟨_, rfl⟩
  · obtain ⟨table, htable⟩ := table_of_isShort hviolations
    rw [htable]
    exact ⟨_, rfl⟩

include hshort hduration in
theorem scannedLine_of_isShort : ∃ line, scannedLine r = .ok line := by
  rw [scannedLine, Numeral.write_of_isShort hshort.scanned, Numeral.write_of_isShort hshort.skipped,
    hduration]
  exact ⟨_, rfl⟩

include hviolations hshort hduration

/-- A report whose numbers can be written is shown, and how long it took is a number with a point. -/
theorem report_of_isShort (verbose : Bool) : ∃ prints, report verbose r = .ok prints := by
  obtain ⟨print, hprint⟩ := violationsPrint_of_isShort hviolations
  have hshown : ∀ d ∈ shownDiagnostics verbose r, d ∈ r.diagnostics := by
    intro d hd
    rw [shownDiagnostics] at hd
    split_ifs at hd
    · exact hd
    · exact List.mem_of_mem_filter hd
  obtain ⟨lines, hlines, -⟩ :=
    mapM_eq_ok fun d hd => diagnosticLine_of_isShort (hshort.diagnostics d (hshown d hd))
  obtain ⟨line, hline⟩ := scannedLine_of_isShort hshort hduration
  rw [report, hprint, hlines, hline]
  exact ⟨_, rfl⟩

theorem prints_of_isShort : ∃ prints, Html.prints r = .ok prints := by
  obtain ⟨prints, hprints⟩ := report_of_isShort hviolations hshort hduration true
  rw [Html.prints, hprints]
  exact ⟨_, rfl⟩

end Report

end Console

end InsecureLinks
