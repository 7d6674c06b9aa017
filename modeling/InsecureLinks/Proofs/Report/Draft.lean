import Mathlib
import InsecureLinks.Proofs.Outcome
import InsecureLinks.Report.Draft

/-!
# Reports got back from documents

The document of a draft is read as that draft (`Draft.ofValue_toValue`), and the draft of a report
is completed to that report (`Draft.complete_of`), so nothing is lost when a report is kept as a
document.
-/

namespace InsecureLinks.Report

/-! ## Drafts and documents -/

theorem ViolationDraft.ofValue_toValue (d : ViolationDraft) :
    ViolationDraft.ofValue d.toValue = .ok d := rfl

theorem DiagnosticDraft.ofValue_toValue (d : DiagnosticDraft) :
    DiagnosticDraft.ofValue d.toValue = .ok d := by
  rcases d with ⟨kind, level, path, message, lineNumber⟩
  cases kind <;> cases level <;> rfl

theorem Draft.ofValue_toValue (d : Draft) : Draft.ofValue d.toValue = .ok d := by
  have hlists : Draft.ofValue d.toValue = (do
      let violations ← (d.violations.map ViolationDraft.toValue).mapM ViolationDraft.ofValue
      let diagnostics ← (d.diagnostics.map DiagnosticDraft.toValue).mapM DiagnosticDraft.ofValue
      return ⟨violations, d.filesScanned, d.filesSkipped, diagnostics, d.roots, d.duration,
        d.timestamp⟩) := rfl
  rw [hlists, mapM_map_eq_ok ViolationDraft.ofValue_toValue,
    mapM_map_eq_ok DiagnosticDraft.ofValue_toValue]
  rfl

/-! ## Drafts and reports -/

theorem ViolationDraft.complete_of (v : Violation) : (ViolationDraft.of v).complete = .ok v := rfl

theorem DiagnosticDraft.complete_of (d : Diagnostic) : (DiagnosticDraft.of d).complete = .ok d := by
  rcases d with ⟨kind, level, path, message, lineNumber⟩
  cases lineNumber <;> rfl

theorem measureOf_measureValue (m : Measure) : measureOf (measureValue m) = .ok m := by
  cases m <;> rfl

theorem textOf_text (t : Text) : textOf (.text t) = .ok t := rfl

theorem Draft.complete_of (r : Report) : (Draft.of r).complete = .ok r := by
  have hparts : (Draft.of r).complete = (do
      let violations ← (r.violations.map ViolationDraft.of).mapM ViolationDraft.complete
      let diagnostics ← (r.diagnostics.map DiagnosticDraft.of).mapM DiagnosticDraft.complete
      let roots ← (r.roots.map Value.text).mapM textOf
      let duration ← measureOf (measureValue r.duration)
      let timestamp ← measureOf (measureValue r.timestamp)
      return ⟨violations, r.filesScanned, r.filesSkipped, diagnostics, roots, duration,
        timestamp⟩) := rfl
  rw [hparts, mapM_map_eq_ok ViolationDraft.complete_of, mapM_map_eq_ok DiagnosticDraft.complete_of,
    mapM_map_eq_ok textOf_text, measureOf_measureValue, measureOf_measureValue]
  rfl

/-- The document of a report is read as that report. -/
theorem ofValue_toValue_complete (r : Report) :
    (Draft.ofValue (Draft.of r).toValue >>= Draft.complete) = .ok r := by
  rw [Draft.ofValue_toValue]
  exact Draft.complete_of r

end InsecureLinks.Report
