import Mathlib
import InsecureLinks.Proofs.Text.Line
import InsecureLinks.Proofs.Text.Occurrence
import InsecureLinks.Proofs.Whitelist.Index
import InsecureLinks.Scan.Walk

/-!
# The links of a file

Which violations a file's text holds.  `SourceFile.links` lists them by going through the lines of
`Text.cutLines` and the columns of `Text.starts`, and this is what a scan finds (`ofText_eq_links`).
What the list holds is said without going through anything by `SourceFile.Finds`: a violation for
each line and column at which the link stands, in the order of lines and columns.
-/

namespace InsecureLinks

namespace SourceFile

/-- The violation at a column of a line of a file; lines count from 0. -/
def linkAt (f : SourceFile) (line : Text) (n k : ℕ) : Violation :=
  ⟨f.relativePath, ((n + 1 : ℕ) : ℤ), (k : ℤ), line, f.root⟩

/-- The links in line `n` of a file. -/
def lineLinks (f : SourceFile) (line : Text) (n : ℕ) : List Violation :=
  (Text.starts insecure line).map (f.linkAt line n)

/-- The links of a file with the text `t`, line by line. -/
def links (f : SourceFile) (t : Text) : List Violation :=
  (Text.cutLines t).zipIdx.flatMap fun p => f.lineLinks p.1.1 p.2

/-- The violations of a file with the text `t`: its links, unless the whitelist allows them. -/
def violations (w : Whitelist) (f : SourceFile) (t : Text) : List Violation :=
  (f.links t).filter fun v => ¬w.Allows v

end SourceFile

namespace Violation

/-- Whether a violation stands on an earlier line, or on the same line at an earlier column. -/
def Before (v v' : Violation) : Prop :=
  v.lineNumber < v'.lineNumber ∨ v.lineNumber = v'.lineNumber ∧ v.columnOffset < v'.columnOffset

theorem ofLine_eq_lineLinks (f : SourceFile) (line : Text) (n : ℕ) :
    ofLine f.root f.relativePath (n + 1) line = f.lineLinks line n := by
  rw [ofLine, Text.occurrences_eq_starts insecure_isBorderFree]
  rfl

/-- A scan finds the links of a file. -/
theorem ofText_eq_links (f : SourceFile) (t : Text) :
    ofText f.root f.relativePath t = f.links t := by
  have hlines : ∀ (ps : List (Text × Text)) (n : ℕ),
      ofLines f.root f.relativePath (n + 1) (ps.map Prod.fst) =
        (ps.zipIdx n).flatMap fun p => f.lineLinks p.1.1 p.2 := by
    intro ps
    induction ps with
    | nil => exact fun _ => rfl
    | cons p ps ih =>
      intro n
      rw [List.map_cons, ofLines, ofLine_eq_lineLinks, ih (n + 1)]
      rfl
  rw [ofText, Text.lines_eq_map_fst]
  exact hlines _ 0

end Violation

namespace SourceFile

variable {f : SourceFile} {t : Text}

theorem mem_lineLinks {line : Text} {n : ℕ} {v : Violation} :
    v ∈ f.lineLinks line n ↔ ∃ k, insecure <+: line.drop k ∧ v = f.linkAt line n k := by
  rw [lineLinks, List.mem_map]
  constructor
  · rintro ⟨k, hk, rfl⟩
    exact ⟨k, (Text.mem_starts.1 hk).2, rfl⟩
  · rintro ⟨k, hk, rfl⟩
    refine ⟨k, Text.mem_starts.2 ⟨?_, hk⟩, rfl⟩
    by_contra hlong
    rw [List.drop_eq_nil_of_le (not_lt.1 hlong)] at hk
    simp [insecure] at hk

theorem mem_links {v : Violation} :
    v ∈ f.links t ↔ ∃ n line terminator k, (Text.cutLines t)[n]? = some (line, terminator) ∧
      insecure <+: line.drop k ∧ v = f.linkAt line n k := by
  rw [links, List.mem_flatMap]
  constructor
  · rintro ⟨⟨⟨line, terminator⟩, n⟩, hp, hv⟩
    obtain ⟨k, hk, rfl⟩ := mem_lineLinks.1 hv
    exact ⟨n, line, terminator, k, List.mem_zipIdx_iff_getElem?.1 hp, hk, rfl⟩
  · rintro ⟨n, line, terminator, k, hp, hk, rfl⟩
    exact ⟨((line, terminator), n), List.mem_zipIdx_iff_getElem?.2 hp, mem_lineLinks.2 ⟨k, hk, rfl⟩⟩

/-- A text in which a link is found has the link in it. -/
theorem infix_of_mem_links {v : Violation} (h : v ∈ f.links t) : insecure <:+: t := by
  obtain ⟨n, line, terminator, k, hp, hk, -⟩ := mem_links.1 h
  have hline : line ++ terminator <:+: t := Text.infix_of_mem_cutLines (List.mem_of_getElem? hp)
  have hlink : insecure <:+: line := hk.isInfix.trans (List.drop_suffix k line).isInfix
  exact (hlink.trans (List.prefix_append line terminator).isInfix).trans hline

/-- The links of a file are in the order of their lines and columns. -/
theorem links_pairwise (f : SourceFile) (t : Text) : (f.links t).Pairwise Violation.Before := by
  rw [links, List.pairwise_flatMap]
  constructor
  · rintro ⟨⟨line, terminator⟩, n⟩ -
    rw [lineLinks, List.pairwise_map]
    refine (Text.starts_sorted insecure line).imp fun {k k'} hk => .inr ⟨rfl, ?_⟩
    exact Nat.cast_lt.2 hk
  · have hsorted : (Text.cutLines t).zipIdx.Pairwise fun p q => p.2 < q.2 := by
      have hnumbers : ((Text.cutLines t).zipIdx.map Prod.snd).Pairwise (· < ·) := by
        rw [List.zipIdx_map_snd]
        exact List.pairwise_lt_range'
      exact List.pairwise_map.1 hnumbers
    refine hsorted.imp fun {p q} hpq v hv v' hv' => ?_
    obtain ⟨k, -, rfl⟩ := mem_lineLinks.1 hv
    obtain ⟨k', -, rfl⟩ := mem_lineLinks.1 hv'
    exact .inl (Nat.cast_lt.2 (Nat.succ_lt_succ hpq))

theorem violations_empty (f : SourceFile) (t : Text) :
    f.violations .empty t = Violation.ofText f.root f.relativePath t := by
  rw [Violation.ofText_eq_links, violations, List.filter_eq_self]
  intro v _
  simp [Whitelist.Allows, Whitelist.empty]

/-- Whether `vs` are the violations of a file with the text `t`: one for each line and column at
which the link stands and the whitelist does not allow it, in the order of lines and columns. -/
structure Finds (w : Whitelist) (f : SourceFile) (t : Text) (vs : List Violation) : Prop where
  sorted : vs.Pairwise Violation.Before
  mem_iff : ∀ v, v ∈ vs ↔ (∃ n line terminator k,
    (Text.cutLines t)[n]? = some (line, terminator) ∧ insecure <+: line.drop k ∧
      v = f.linkAt line n k) ∧ ¬w.Allows v

theorem finds_links (w : Whitelist) (f : SourceFile) (t : Text) :
    Finds w f t ((f.links t).filter fun v => ¬w.Allows v) where
  sorted := (links_pairwise f t).filter _
  mem_iff v := by rw [List.mem_filter, mem_links, decide_eq_true_iff]

end SourceFile

end InsecureLinks
