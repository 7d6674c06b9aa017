import Mathlib
import InsecureLinks.Proofs.Scan.Report

/-!
# What a scan reads

A scan finds violations in a file only if it can read it as text, and then it finds those of the text
(`violations_scanFile`).  To be read the file has to be where its path leads
(`exists_file_of_violations`).
-/

namespace InsecureLinks.Scan

open FileTree

variable {tree : FileTree} {here : Place} {w : Whitelist} {maxFileSize : ℤ} {f : SourceFile}

/-- A scan that ends in time has found files, and scanned them. -/
theorem exists_files_of_run {target : Target} {o : ScanOptions} {clock : Clock} {now : Binary64}
    {report : Report} (h : run tree here target w o clock now = .ok report) :
    ∃ found, find tree here target = .ok found ∧
      files tree here target w o clock now found = .ok report := by
  rw [run] at h
  rcases hfind : find tree here target with fault | found
  · rw [hfind] at h
    cases h
  · rw [hfind] at h
    exact ⟨found, rfl, h⟩

/-- A scan that ends in time reports the violations of each file that it has found. -/
theorem find_of_run_eq_ok {target : Target} {o : ScanOptions} {clock : Clock} {now : Binary64}
    {report : Report} (h : run tree here target w o clock now = .ok report) :
    ∃ found met, find tree here target = .ok (found, met) ∧
      report.violations = found.flatMap fun f =>
        (scanFile tree here w.index o.maxFileSize f).violations := by
  obtain ⟨⟨found, met⟩, hfind, hfiles⟩ := exists_files_of_run h
  exact ⟨found, met, hfind, (files_eq_ok hfiles).1⟩

/-- The duration of a scan is a number with a point. -/
theorem exists_duration_of_run {target : Target} {o : ScanOptions} {clock : Clock} {now : Binary64}
    {report : Report} (h : run tree here target w o clock now = .ok report) :
    ∃ x, report.duration = .real x := by
  obtain ⟨found, -, hfiles⟩ := exists_files_of_run h
  obtain ⟨-, -, rfl⟩ := files_eq_ok_iff.1 hfiles
  exact ⟨_, rfl⟩

theorem violations_scanFile {t : Text} (h : SourceText.read tree here maxFileSize f.path = .ok t) :
    (scanFile tree here w.index maxFileSize f).violations = f.violations w t := by
  rw [scanFile, h]
  exact (Whitelist.filter_index w _).trans (by rw [Violation.ofText_eq_links]; rfl)

theorem exists_text_of_violations (h : (scanFile tree here w.index maxFileSize f).violations ≠ []) :
    ∃ t, SourceText.read tree here maxFileSize f.path = .ok t := by
  rw [scanFile] at h
  rcases hread : SourceText.read tree here maxFileSize f.path with s | t
  · rw [hread] at h
    exact absurd rfl h
  · exact ⟨t, rfl⟩

theorem dropByteOrderMark_of_ofBytes {b : Utf8.Bytes} {t : Text}
    (h : SourceText.ofBytes maxFileSize b = .ok t) :
    Utf8.dropByteOrderMark b = Utf8.encode t := by
  rw [SourceText.ofBytes] at h
  split_ifs at h
  rcases hdecode : Utf8.decode (Utf8.dropByteOrderMark b) with f | u
  · rw [hdecode] at h
    cases h
  · rw [hdecode] at h
    cases h
    exact Utf8.decode_eq_ok_iff.1 hdecode

/-- The bytes of a file that is scanned as text. -/
theorem exists_bytes_of_read {p : Path} {t : Text}
    (h : SourceText.read tree here maxFileSize p = .ok t) :
    ∃ b, tree.read here p = .ok b ∧ SourceText.ofBytes maxFileSize b = .ok t := by
  rw [SourceText.read] at h
  rcases hread : tree.read here p with f | b
  · rw [hread] at h
    cases h
  · rw [hread] at h
    exact ⟨b, rfl, h⟩

theorem read_of_reach {p : Place} {c : Content}
    (hreadable : tree.unreadable.contains (routeOf here f.path) = false)
    (hreach : tree.reach here f.path.text = .ok (p, .file c)) :
    tree.read here f.path = .ok c.toBytes := by
  rw [FileTree.read, hreadable, hreach]
  rfl

/-- What a scan has to read to find a violation in a file. -/
theorem exists_file_of_violations (h : (scanFile tree here w.index maxFileSize f).violations ≠ []) :
    ∃ p c t, tree.unreadable.contains (routeOf here f.path) = false ∧
      tree.reach here f.path.text = .ok (p, .file c) ∧
      SourceText.ofBytes maxFileSize c.toBytes = .ok t ∧
      (scanFile tree here w.index maxFileSize f).violations = f.violations w t := by
  obtain ⟨t, ht⟩ := exists_text_of_violations h
  rw [violations_scanFile ht] at h ⊢
  obtain ⟨b, hread, htext⟩ := exists_bytes_of_read ht
  rw [FileTree.read] at hread
  split_ifs at hread with hreadable
  rcases hreach : tree.reach here f.path.text with c | ⟨p, x⟩
  · rw [hreach] at hread
    cases hread
  · rw [hreach] at hread
    cases x with
    | file c =>
      cases hread
      exact ⟨p, c, t, Bool.eq_false_of_not_eq_true hreadable, rfl, htext, rfl⟩
    | folder => cases hread
    | link target | pipe =>
      -- Nothing can be read of it.
      cases hread
      have hempty := dropByteOrderMark_of_ofBytes htext
      obtain rfl : t = [] := Utf8.encode_injective hempty.symm
      exact absurd rfl h

end InsecureLinks.Scan
