import Mathlib
import InsecureLinks.Proofs.Output.Console
import InsecureLinks.Proofs.Replace.Visits
import InsecureLinks.Proofs.Text.CodePoint

/-!
# Totals

The totals of a report are told in several places, which take them from the set of its files, from its
groups, or from its violations one by one.  They agree for every report (`counts_agree`), as the groups
are the violations cut up by file (`Groups.isPartition_of`).  A report has a table and a document exactly
if its lines and columns can be written, and where it has them they agree with the rest.
-/

namespace InsecureLinks

/-! ## Elements of a document -/

namespace Checkstyle

mutual

/-- How many elements with a name there are in an element, itself included. -/
def Element.count (name : Text) : Element → ℕ
  | .mk n _ children => (if n = name then 1 else 0) + Element.countAll name children

/-- How many elements with a name there are in some elements. -/
def Element.countAll (name : Text) : List Element → ℕ
  | [] => 0
  | e :: es => e.count name + Element.countAll name es

end

namespace Element

theorem countAll_eq_sum (name : Text) (es : List Element) :
    countAll name es = (es.map (count name)).sum := by
  induction es with
  | nil => rfl
  | cons e es ih => rw [countAll, ih, List.map_cons, List.sum_cons]

/-- How values are written does not matter to how many elements there are. -/
theorem Forall.count_written {P : Text → List (Text × Text) → Prop} {e : Element} (he : e.Forall P)
    (name : Text) : e.written.count name = e.count name := by
  induction he with
  | @mk n attributes children own inner ih =>
    rw [Element.written, count, count, writtenAll_eq_map, countAll_eq_sum, countAll_eq_sum,
      List.map_map, Function.comp_def, List.map_congr_left ih]

end Element

theorem count_fileOf (fs : List Finding) (file : RawText × RawText) :
    (fileOf fs file).count "file".toList = 1 ∧
      (fileOf fs file).count "error".toList = (fs.filter fun f => f.key = file).length := by
  have hfile : ∀ f, (errorOf f).count "file".toList = 0 := fun f => rfl
  have herror : ∀ f, (errorOf f).count "error".toList = 1 := fun f => rfl
  rw [fileOf, Element.count, Element.count, Element.countAll_eq_sum, Element.countAll_eq_sum,
    List.map_map, List.map_map, Function.comp_def, Function.comp_def]
  simp only [hfile, herror, List.map_const', List.sum_replicate, smul_eq_mul, mul_zero, mul_one]
  exact ⟨rfl, Nat.zero_add _⟩

/-- The element of some violations has one for each group and one for each violation in a group. -/
theorem count_elementOf (fs : List Finding) :
    (elementOf fs).count "file".toList = (Groups.of Finding.key fs).length ∧
      (elementOf fs).count "error".toList =
        ((Groups.of Finding.key fs).map fun g => g.2.length).sum := by
  rw [elementOf, Element.count, Element.count, Element.countAll_eq_sum, Element.countAll_eq_sum,
    List.map_map, List.map_map, Function.comp_def, Function.comp_def, Groups.of_eq_map, List.map_map,
    Function.comp_def]
  simp only [count_fileOf, List.map_const', List.sum_replicate, smul_eq_mul, mul_one, List.length_map]
  exact ⟨Nat.zero_add _, Nat.zero_add _⟩

/-- The violations of a report, as they go into a document, are in as many files. -/
theorem card_key_of (vs : List Violation) :
    ((vs.map Finding.of).map Finding.key).toFinset.card = (vs.map Violation.key).toFinset.card := by
  have hkey : Finding.key ∘ Finding.of = Prod.map RawText.ofText RawText.ofText ∘ Violation.key := rfl
  have hinjective : Function.Injective (Prod.map RawText.ofText RawText.ofText) :=
    RawText.ofText_injective.prodMap RawText.ofText_injective
  rw [List.map_map, hkey, ← List.map_map, ← Finset.card_image_of_injective _ hinjective]
  exact congrArg Finset.card (Multiset.toFinset_map _ (Multiset.ofList (vs.map Violation.key)))

end Checkstyle

/-! ## What is told of a report -/

namespace Report

open Checkstyle (Element)

/-- Whether everything that tells how many files and violations a report has tells the same. -/
structure Counts (r : Report) (files violations : ℕ) : Prop where
  distinct : (r.violations.map Violation.key).toFinset.card = files
  filesWithViolations : r.filesWithViolations = files
  summary : r.summary = "Checkstyle files with violations: ".toList ++ Text.natural files
  violationCount : r.violationCount = violations
  rows : ∀ table, Console.table r = .ok table → table.rows.length = violations
  document : ∀ t, Checkstyle.document r = .ok t → ∃ e, Xml.parse? t = some e ∧
    e.count "file".toList = files ∧ e.count "error".toList = violations
  groups : r.byFile.length = files
  /-- A run of the replacer visits every group, unless visiting one fails, which ends it. -/
  visits : ∀ dryRun here tree, ∃ visited ns tree',
    Replace.Visits dryRun here tree visited ns tree' ∧
      ((visited = r.byFile ∧ ns.length = files ∧
          ∃ done, Replace.report dryRun here r tree = (tree', .ok done)) ∨
        ∃ g f, visited ++ [g] <+: r.byFile ∧
          Replace.inFile dryRun here (Replace.groupPath g) g.2 tree' = .error f ∧
          Replace.report dryRun here r tree = (tree', .error f))
  status : r.exitCode = 0 ↔ files = 0 ∧ violations = 0

variable (r : Report)

theorem isPartition_byFile : Groups.IsPartition Violation.key r.violations r.byFile :=
  Groups.isPartition_of _ _

theorem length_byFile : r.byFile.length = r.filesWithViolations := by
  rw [filesWithViolations, ← Groups.keys_of, List.length_map]
  rfl

theorem exitCode_eq_zero_iff : r.exitCode = 0 ↔ r.violations = [] := by
  rw [exitCode, passed, ← List.isEmpty_iff]
  cases r.violations.isEmpty with
  | true => simp
  | false => simp

/-- In the document of a report there is an element for each file and one for each violation. -/
theorem count_document {t : Text} (h : Checkstyle.document r = .ok t) :
    ∃ e, Xml.parse? t = some e ∧ e.count "file".toList = r.filesWithViolations ∧
      e.count "error".toList = r.violationCount := by
  let fs := r.violations.map Finding.of
  have hwritable := Checkstyle.forall_elementOf fs
  have hwritten := hwritable.count_written
  have hpartition := Groups.isPartition_of Finding.key fs
  obtain ⟨hfiles, herrors⟩ := Checkstyle.count_elementOf fs
  rw [Checkstyle.document_eq_ok h]
  refine ⟨_, Checkstyle.parse?_documentOf hwritable, ?_, ?_⟩
  · rw [hwritten, hfiles, hpartition.length_eq, Checkstyle.card_key_of,
      ← r.isPartition_byFile.length_eq, length_byFile]
  · rw [hwritten, herrors, hpartition.sum_length]
    exact List.length_map _

/-- In the table of a report there is a row for each violation. -/
theorem length_rows {table : Table} (h : Console.table r = .ok table) :
    table.rows.length = r.violationCount := by
  obtain ⟨rows, hrows, htable⟩ := bind_eq_ok.1 h
  cases htable
  exact length_of_mapM hrows

/-- A report has a table and a document exactly if the lines and columns can be written. -/
theorem table_document_cases :
    ((∀ v ∈ r.violations, v.IsShort) ∧ (∃ table, Console.table r = .ok table) ∧
      ∃ t, Checkstyle.document r = .ok t) ∨
    (∃ v ∈ r.violations, ¬v.IsShort) ∧ Console.table r = .error .tooManyDigits ∧
      Checkstyle.document r = .error .tooManyDigits := by
  by_cases hshort : ∀ v ∈ r.violations, v.IsShort
  · exact .inl ⟨hshort, Console.table_of_isShort hshort, Checkstyle.document_of_isShort hshort⟩
  · obtain ⟨v, hv, hlong⟩ : ∃ v ∈ r.violations, ¬v.IsShort := by simpa using hshort
    exact .inr ⟨⟨v, hv, hlong⟩, Console.table_of_not_isShort hv hlong,
      Checkstyle.document_of_not_isShort hv hlong⟩

/-- A run of the replacer visits every group, unless visiting one fails, which ends it. -/
theorem visits_byFile (dryRun : Bool) (here : Place) (tree : FileTree) : ∃ visited ns tree',
    Replace.Visits dryRun here tree visited ns tree' ∧
      ((visited = r.byFile ∧ ns.length = r.filesWithViolations ∧
          ∃ done, Replace.report dryRun here r tree = (tree', .ok done)) ∨
        ∃ g f, visited ++ [g] <+: r.byFile ∧
          Replace.inFile dryRun here (Replace.groupPath g) g.2 tree' = .error f ∧
          Replace.report dryRun here r tree = (tree', .error f)) := by
  rcases Replace.inGroups_outcome r.byFile tree with
    ⟨ns, tree', hvisits, hrun⟩ | ⟨before, g, after, ns, tree', f, hsplit, hvisits, hfault, hrun⟩
  · refine ⟨r.byFile, ns, tree', hvisits, .inl ⟨rfl, ?_, _, hrun⟩⟩
    rw [hvisits.length_eq, length_byFile]
  · refine ⟨before, ns, tree', hvisits, .inr ⟨g, f, ⟨after, ?_⟩, hfault, hrun⟩⟩
    rw [hsplit, List.append_assoc, List.singleton_append]

theorem filesWithViolations_eq_zero_iff : r.filesWithViolations = 0 ↔ r.violations = [] := by
  rw [← length_byFile, List.length_eq_zero_iff]
  exact Groups.of_eq_nil_iff _ _

/-- The groups of a report are its violations cut up by file, and all that is counted in it agrees.  The
table and the document are there, to be counted in, exactly if all lines and columns can be written. -/
theorem counts_agree : Groups.IsPartition Violation.key r.violations r.byFile ∧
    (∃ files violations, r.Counts files violations) ∧
    (((∀ v ∈ r.violations, v.IsShort) ∧ (∃ table, Console.table r = .ok table) ∧
        ∃ t, Checkstyle.document r = .ok t) ∨
      (∃ v ∈ r.violations, ¬v.IsShort) ∧ Console.table r = .error .tooManyDigits ∧
        Checkstyle.document r = .error .tooManyDigits) := by
  refine ⟨r.isPartition_byFile, ⟨r.filesWithViolations, r.violationCount, ?_⟩,
    r.table_document_cases⟩
  constructor
  case distinct => rw [← r.isPartition_byFile.length_eq, length_byFile]
  case filesWithViolations => rfl
  case summary => rfl
  case violationCount => rfl
  case rows => exact fun table => r.length_rows
  case document => exact fun t => r.count_document
  case groups => exact r.length_byFile
  case visits => exact r.visits_byFile
  case status =>
    rw [exitCode_eq_zero_iff, filesWithViolations_eq_zero_iff, violationCount,
      List.length_eq_zero_iff, and_self_iff]

/-- There is a report with a violation that has neither a table nor a document. -/
theorem counts_of_wideReport : Checkstyle.wideReport.violationCount = 1 ∧
    Console.table Checkstyle.wideReport = .error .tooManyDigits ∧
    Checkstyle.document Checkstyle.wideReport = .error .tooManyDigits := by
  have hmem : Checkstyle.wideViolation ∈ Checkstyle.wideReport.violations :=
    List.mem_singleton_self _
  exact ⟨rfl, Console.table_of_not_isShort hmem Checkstyle.not_isShort_wideViolation,
    Checkstyle.document_of_not_isShort hmem Checkstyle.not_isShort_wideViolation⟩

end Report

end InsecureLinks
