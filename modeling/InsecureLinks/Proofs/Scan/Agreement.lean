import Mathlib
import InsecureLinks.Proofs.Scan.Report

/-!
# Scans that agree

Two scans of the same files agree on what the files hold if the same can be read of each
(`files_of_reading`), whatever else is different between the trees, the targets and the clocks.
-/

namespace InsecureLinks

/-- Whether two reports agree on what the files hold. -/
structure Report.Agrees (r r' : Report) : Prop where
  violations : r.violations = r'.violations
  filesScanned : r.filesScanned = r'.filesScanned
  filesSkipped : r.filesSkipped = r'.filesSkipped

namespace Scan

section Reading

variable {tree tree' : FileTree} {here : Place} {w w' : Whitelist} {m : ℤ} {f : SourceFile}

/-- What a file adds to a report depends on what can be read of it, but not on why it cannot. -/
theorem scanFile_of_reading
    (hread : (tree.read here f.path).toOption = (tree'.read here f.path).toOption)
    (hentries : w.entries = w'.entries) :
    (scanFile tree here w.index m f).violations = (scanFile tree' here w'.index m f).violations ∧
      (scanFile tree here w.index m f).diagnostics.length =
        (scanFile tree' here w'.index m f).diagnostics.length := by
  have hindex : w.index = w'.index := by rw [Whitelist.index, Whitelist.index, hentries]
  rw [scanFile, scanFile, SourceText.read, SourceText.read, hindex]
  rcases toOption_eq_iff.1 hread with ⟨b, hb, hb'⟩ | ⟨e, e', he, he'⟩
  · rw [hb, hb']
    exact ⟨rfl, rfl⟩
  · rw [he, he']
    exact ⟨rfl, rfl⟩

theorem canOpen_of_reading
    (hread : (tree.read here f.path).toOption = (tree'.read here f.path).toOption) :
    SourceText.canOpen tree here f.path = SourceText.canOpen tree' here f.path := by
  rw [SourceText.canOpen, SourceText.canOpen]
  rcases toOption_eq_iff.1 hread with ⟨b, hb, hb'⟩ | ⟨e, e', he, he'⟩
  · rw [hb, hb']
  · rw [he, he']
    rfl

end Reading

section Files

variable {tree tree' : FileTree} {here : Place} {target target' : Target} {w w' : Whitelist}
  {o o' : ScanOptions} {clock clock' : Clock} {now now' : Binary64} {found : List SourceFile}
  {met met' : List Diagnostic} {report report' : Report}

theorem limitFault?_of_canOpen (hsize : o.maxFileSize = o'.maxFileSize)
    (hopen : ∀ f ∈ found,
      SourceText.canOpen tree here f.path = SourceText.canOpen tree' here f.path)
    (done : List ℕ) : limitFault? tree here o found done = limitFault? tree' here o' found done := by
  have hfiles : ∀ f ∈ done.filterMap (fun k => found[k]?), f ∈ found := by
    intro f hf
    obtain ⟨k, -, hk⟩ := List.mem_filterMap.1 hf
    exact List.mem_of_getElem? hk
  have hany : ((done.filterMap fun k => found[k]?).any fun f => SourceText.canOpen tree here f.path) =
      (done.filterMap fun k => found[k]?).any fun f => SourceText.canOpen tree' here f.path := by
    rw [Bool.eq_iff_iff, List.any_eq_true, List.any_eq_true]
    refine exists_congr fun f => and_congr_right fun hf => ?_
    rw [hopen f (hfiles f hf)]
  rw [limitFault?, limitFault?, hsize, hany]

theorem limitFault?_of_files_eq_ok
    (h : files tree here target w o clock now (found, met) = .ok report) :
    limitFault? tree here o found (List.range found.length) = none :=
  (files_eq_ok_iff.1 h).2.1

/-- Scans of the same files, of which the same can be read, agree. -/
theorem files_of_reading (hsize : o.maxFileSize = o'.maxFileSize)
    (hentries : w.entries = w'.entries)
    (hread : ∀ f ∈ found, (tree.read here f.path).toOption = (tree'.read here f.path).toOption)
    (htime : (schedule o' clock' found.length).timedOut = false)
    (h : files tree here target w o clock now (found, met) = .ok report) :
    ∃ report', files tree' here target' w' o' clock' now' (found, met') = .ok report' ∧
      report.Agrees report' := by
  have hlimit : limitFault? tree' here o' found (List.range found.length) = none := by
    rw [← limitFault?_of_canOpen hsize fun f hf => canOpen_of_reading (hread f hf),
      limitFault?_of_files_eq_ok h]
  obtain ⟨report', h'⟩ := @exists_report_of_files tree' here target' w' o' clock' now' found met'
    htime hlimit
  obtain ⟨hviolations, -, hskipped, hcount⟩ := files_eq_ok h
  obtain ⟨hviolations', -, hskipped', hcount'⟩ := files_eq_ok h'
  have hsame : report.filesSkipped = report'.filesSkipped := by
    rw [hskipped, hskipped', List.length_flatMap, List.length_flatMap, hsize]
    refine congrArg _ (congrArg List.sum (List.map_congr_left fun f hf => ?_))
    exact (scanFile_of_reading (hread f hf) hentries).2
  refine ⟨report', h', ?_, ?_, hsame⟩
  · rw [hviolations, hviolations', List.flatMap_def, List.flatMap_def, hsize]
    refine congrArg List.flatten (List.map_congr_left fun f hf => ?_)
    exact (scanFile_of_reading (hread f hf) hentries).1
  · have hcount : report.filesScanned + report.filesSkipped = found.length := hcount
    have hcount' : report'.filesScanned + report'.filesSkipped = found.length := hcount'
    omega

/-- Scans of the same files that go by the same are the same if the same happens on reading each. -/
theorem files_eq_of_read
    (hread : ∀ f ∈ found, tree.read here f.path = tree'.read here f.path) :
    files tree here target w o clock now (found, met) =
      files tree' here target w o clock now (found, met) := by
  have hscan : ∀ f ∈ found, scanFile tree here w.index o.maxFileSize f =
      scanFile tree' here w.index o.maxFileSize f := by
    intro f hf
    rw [scanFile, scanFile, SourceText.read, SourceText.read, hread f hf]
  have hfill : ∀ done, fill (scanFile tree here w.index o.maxFileSize) found done =
      fill (scanFile tree' here w.index o.maxFileSize) found done := by
    intro done
    refine List.ext_getElem? fun k => ?_
    rw [getElem?_fill, getElem?_fill]
    rcases hk : found[k]? with _ | f
    · rfl
    · rw [Option.map_some, Option.map_some, hscan f (List.mem_of_getElem? hk)]
  have hlimit : ∀ done, limitFault? tree here o found done = limitFault? tree' here o found done :=
    limitFault?_of_canOpen rfl fun f hf => by rw [SourceText.canOpen, SourceText.canOpen, hread f hf]
  rw [files, files, carryOut, carryOut, hlimit, hfill]

end Files

end Scan

end InsecureLinks
