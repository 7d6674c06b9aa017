import Mathlib
import InsecureLinks.Proofs.Scan.Links
import InsecureLinks.Proofs.Text.Position

/-!
# Where the links of a text are

A violation names a line and a column.  Read back as places in the whole text, the violations of a
text are all the places at which the link stands, from the first to the last
(`ofText_standsAt`).
-/

namespace InsecureLinks.Violation

/-- Whether a violation stands for the link at the place `q` of a text that is cut into lines: it
names a line with its whole text and a column in it, and the column is as many characters from the
start of the line as `q` is. -/
structure StandsAt (root filePath : Text) (cut : List (Text × Text)) (v : Violation) (q : ℕ) :
    Prop where
  ofFile : v.root = root ∧ v.filePath = filePath
  inLine : ∃ (n k : ℕ) (terminator : Text),
    v.lineNumber = ((n + 1 : ℕ) : ℤ) ∧ v.columnOffset = (k : ℤ) ∧
      cut[n]? = some (v.lineText, terminator) ∧ insecure <+: v.lineText.drop k ∧
        q = Text.lineStart cut n + k

theorem insecure_noBreak : ∀ c ∈ insecure, Text.isLineBreak c = false := by
  simp [insecure, Text.isLineBreak]

/-- The links of a line stand for the places in it. -/
theorem standsAt_lineLinks (f : SourceFile) {cut : List (Text × Text)} {p : Text × Text} {n : ℕ}
    (hp : cut[n]? = some p) :
    List.Forall₂ (StandsAt f.root f.relativePath cut) (f.lineLinks p.1 n)
      ((Text.starts insecure p.1).map (Text.lineStart cut n + ·)) := by
  rw [SourceFile.lineLinks, List.forall₂_map_left_iff, List.forall₂_map_right_iff,
    List.forall₂_same]
  intro k hk
  exact ⟨⟨rfl, rfl⟩, n, k, p.2, rfl, rfl, hp, (Text.mem_starts.1 hk).2, rfl⟩

/-- A text is cut into its lines, and the violations found in it stand for all the places at which
the link stands in the text, each once and in order. -/
theorem ofText_standsAt (root filePath t : Text) :
    ∃ cut places, Text.IsCut cut ∧ cut.flatMap (fun p => p.1 ++ p.2) = t ∧
      places.Pairwise (· < ·) ∧ (∀ q, q ∈ places ↔ insecure <+: t.drop q) ∧
      List.Forall₂ (StandsAt root filePath cut) (ofText root filePath t) places := by
  refine ⟨Text.cutLines t, Text.starts insecure t, Text.isCut_cutLines t, Text.flatMap_cutLines t,
    Text.starts_sorted insecure t, fun q => Text.mem_starts_of_ne_nil (by decide), ?_⟩
  have hplaces := Text.starts_flatMap (by decide) insecure_noBreak (Text.isCut_cutLines t)
  have hwhole : (Text.cutLines t).flatMap (fun p => p.1 ++ p.2) = t := Text.flatMap_cutLines t
  rw [hwhole] at hplaces
  rw [ofText_eq_links ⟨root, filePath⟩, SourceFile.links, hplaces]
  have hsame : List.Forall₂ (fun p q => p ∈ (Text.cutLines t).zipIdx ∧ p = q)
      (Text.cutLines t).zipIdx (Text.cutLines t).zipIdx := List.forall₂_same.2 fun p hp => ⟨hp, rfl⟩
  refine List.rel_flatMap hsame ?_
  rintro p _ ⟨hp, rfl⟩
  exact standsAt_lineLinks ⟨root, filePath⟩ (List.mem_zipIdx_iff_getElem?.1 hp)

end InsecureLinks.Violation
