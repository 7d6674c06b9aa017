import Mathlib
import InsecureLinks.Proofs.Output.Console
import InsecureLinks.Proofs.Scan.Reading
import InsecureLinks.Proofs.Scan.SourceText
import InsecureLinks.Proofs.Text.Search

/-!
# How large the numbers of a scan are

The line and the column of a violation are within its text, and the text is within its file, which is
no larger than its size limit.  As no limit counts that is larger than a row of bytes, the lines and
columns that a scan reports can be written (`isShort_of_run`).  So can its other numbers, unless there are
more files, or lines in the whitelist, than a machine word counts (`isShort_of_found`).
-/

namespace InsecureLinks

theorem Text.length_cutLines_le (t : Text) : (cutLines t).length ≤ t.length := by
  induction t using break_induction with
  | nil => rfl
  | crlf t ih =>
    rw [cutLines_crlf]
    simp only [List.length_cons]
    omega
  | cr t hcr ih =>
    rw [cutLines_cr hcr]
    simpa using ih
  | lf t ih =>
    rw [cutLines_lf]
    simpa using ih
  | char c t hc ih =>
    rw [cutLines_char hc]
    rcases hcut : cutLines t with _ | ⟨⟨l, e⟩, rest⟩
    · simp
    · rw [hcut] at ih
      simp only [List.length_cons] at ih ⊢
      omega

theorem Utf8.length_le_encode (t : Text) : t.length ≤ (encode t).length := by
  induction t with
  | nil => rfl
  | cons c t ih =>
    have hne : encodeChar c ≠ [] := by
      rw [encodeChar_eq]
      exact String.utf8EncodeChar_ne_nil
    have hpos := List.length_pos_of_ne_nil hne
    rw [encode_cons, List.length_append, List.length_cons]
    omega

/-- The line and the column of a link, both counted from 1, are no larger than the text is long. -/
theorem SourceFile.le_length_of_mem_links {f : SourceFile} {t : Text} {v : Violation}
    (h : v ∈ f.links t) : v.lineNumber.natAbs ≤ t.length ∧ (v.columnOffset + 1).natAbs ≤ t.length := by
  obtain ⟨n, line, terminator, k, hp, hk, rfl⟩ := mem_links.1 h
  constructor
  · have hn : n < (Text.cutLines t).length := (List.getElem?_eq_some_iff.1 hp).1
    have hcut := Text.length_cutLines_le t
    change ((n + 1 : ℕ) : ℤ).natAbs ≤ t.length
    omega
  · have hline : (line ++ terminator).length ≤ t.length :=
      (Text.infix_of_mem_cutLines (List.mem_of_getElem? hp)).length_le
    have hlink := Text.add_length_le (by decide) hk
    have hpos : 0 < insecure.length := by decide
    rw [List.length_append] at hline
    change ((k : ℤ) + 1).natAbs ≤ t.length
    omega

namespace Scan

variable {tree : FileTree} {here : Place} {target : Target} {w : Whitelist} {o : ScanOptions}
  {clock : Clock} {now : Binary64} {r : Report}

/-- The text of a file that is not too large is no longer than the size limit. -/
theorem length_le_of_read {maxBytes : ℤ} {p : Path} {t : Text}
    (h : SourceText.read tree here maxBytes p = .ok t) : (t.length : ℤ) ≤ maxBytes := by
  obtain ⟨b, -, htext⟩ := exists_bytes_of_read h
  have hsize := (SourceText.ofBytes_eq_ok_iff.1 htext).size
  have hencode := Utf8.length_le_encode t
  have hdrop : (Utf8.dropByteOrderMark b).length ≤ b.length := by
    rw [Utf8.dropByteOrderMark]
    split_ifs
    · simp
    · exact le_rfl
  rw [dropByteOrderMark_of_ofBytes htext] at hdrop
  omega

/-- Where a file that is scanned can be opened and nothing keeps the files from being read, the size limit
fits into a machine word. -/
theorem maxFileSize_lt {found : List SourceFile} {f : SourceFile} (hf : f ∈ found)
    (hopen : SourceText.canOpen tree here f.path = true)
    (h : limitFault? tree here o found (List.range found.length) = none) : o.maxFileSize < 2 ^ 63 := by
  rw [limitFault?] at h
  split at h
  · next hlimit =>
    rw [SourceText.limitFault?] at hlimit
    split_ifs at hlimit
    omega
  · next g hlimit =>
    split_ifs at h with hnone
    obtain ⟨i, hi, rfl⟩ := List.getElem_of_mem hf
    refine absurd (List.any_eq_true.2 ⟨found[i], List.mem_filterMap.2 ⟨i, ?_, ?_⟩, hopen⟩) hnone
    · exact List.mem_range.2 hi
    · exact List.getElem?_eq_getElem hi

/-- The lines and columns that a scan reports can be written. -/
theorem isShort_of_run (h : run tree here target w o clock now = .ok r) :
    ∀ v ∈ r.violations, v.IsShort := by
  obtain ⟨⟨found, met⟩, -, hfiles⟩ := exists_files_of_run h
  obtain ⟨-, hlimit, -⟩ := files_eq_ok_iff.1 hfiles
  intro v hv
  rw [(files_eq_ok hfiles).1, List.mem_flatMap] at hv
  obtain ⟨f, hf, hv⟩ := hv
  obtain ⟨t, ht⟩ := exists_text_of_violations (List.ne_nil_of_mem hv)
  obtain ⟨b, hread, -⟩ := exists_bytes_of_read ht
  have hmax := maxFileSize_lt hf (SourceText.canOpen_of_read hread) hlimit
  have hlength := length_le_of_read ht
  rw [violations_scanFile ht] at hv
  obtain ⟨hline, hcolumn⟩ := SourceFile.le_length_of_mem_links (List.mem_of_mem_filter hv)
  have hline' : v.lineNumber.natAbs < 2 ^ 63 := by omega
  have hcolumn' : (v.columnOffset + 1).natAbs < 2 ^ 63 := by omega
  exact ⟨Numeral.isShort_of_lt hline', Numeral.isShort_of_lt hcolumn'⟩

/-- A diagnostic for a file that is not scanned names no line. -/
theorem isShort_of_mem_diagnostics {maxFileSize : ℤ} {f : SourceFile} {d : Diagnostic}
    (h : d ∈ (scanFile tree here w.index maxFileSize f).diagnostics) : d.IsShort := by
  rw [scanFile] at h
  rcases hread : SourceText.read tree here maxFileSize f.path with s | t
  · rw [hread] at h
    obtain rfl := List.mem_singleton.1 h
    intro n hn
    rw [Skipped.diagnostic] at hn
    split_ifs at hn
    · cases hn
    · cases hn
  · rw [hread] at h
    cases h

/-- The numbers of a report can be written if not too many files are found and what was passed over
before the files were read can be shown. -/
theorem isShort_of_found {found : List SourceFile} {met : List Diagnostic}
    (hfind : find tree here target = .ok (found, met)) (hcount : found.length < 2 ^ 63)
    (hmet : ∀ d ∈ w.diagnostics ++ met, d.IsShort)
    (h : run tree here target w o clock now = .ok r) : r.IsShort := by
  obtain ⟨found', hfound, hfiles⟩ := exists_files_of_run h
  cases hfind.symm.trans hfound
  have hdiagnostics := (files_eq_ok hfiles).2.1
  obtain ⟨-, -, rfl⟩ := files_eq_ok_iff.1 hfiles
  let slots : Slots := found.map fun f => some (scanFile tree here w.index o.maxFileSize f)
  have hslots : slots.length < 2 ^ 63 := by rwa [List.length_map]
  refine ⟨?_, ?_, fun d hd => ?_⟩
  · have hscanned : scannedCount slots ≤ slots.length := List.countP_le_length
    exact Numeral.isShort_of_lt (hscanned.trans_lt hslots)
  · have hskipped : (diagnosticsOf slots).length ≤ slots.length := List.length_filterMap_le _ _
    exact Numeral.isShort_of_lt (hskipped.trans_lt hslots)
  · rw [hdiagnostics, List.mem_append] at hd
    rcases hd with hd | hd
    · exact hmet d hd
    · obtain ⟨f, -, hd⟩ := List.mem_flatMap.1 hd
      exact isShort_of_mem_diagnostics hd

end Scan

end InsecureLinks
