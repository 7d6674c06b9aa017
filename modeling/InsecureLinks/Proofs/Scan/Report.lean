import Mathlib
import InsecureLinks.Proofs.Glob.Pieces
import InsecureLinks.Proofs.Scan.Completion
import InsecureLinks.Proofs.Scan.Links
import InsecureLinks.Proofs.Text.Utf8
import InsecureLinks.Scan.Engine

/-!
# What a report holds

The report of a scan that ends in time is put together from what each file contributes: a file
that can be read as text its violations, any other file one diagnostic (`Contribution`).  Nothing is
lost, doubled or moved on the way through the slots (`getElem?_fill`), whatever the order in which
they are filled, nor through the index of the whitelist.
-/

namespace InsecureLinks.Scan

/-! ## Slots -/

section Slots

variable (scan : SourceFile → Outcome) (files : List SourceFile)

theorem fill_concat (done : List ℕ) (j : ℕ) :
    fill scan files (done ++ [j]) = (fill scan files done).set j (files[j]?.map scan) := by
  rw [fill, List.foldl_append]
  rfl

theorem length_fill (done : List ℕ) : (fill scan files done).length = files.length := by
  induction done using List.reverseRecOn with
  | nil => exact List.length_map _
  | append_singleton done j ih => rw [fill_concat, List.length_set, ih]

/-- A slot is filled exactly if its file has been scanned, and then with what that file gives. -/
theorem getElem?_fill (done : List ℕ) (k : ℕ) :
    (fill scan files done)[k]? =
      files[k]?.map fun f => if k ∈ done then some (scan f) else none := by
  induction done using List.reverseRecOn with
  | nil => simp only [fill, List.foldl_nil, List.getElem?_map, List.not_mem_nil, if_false]
  | append_singleton done j ih =>
    rw [fill_concat, List.getElem?_set, length_fill]
    by_cases hj : j = k
    · subst hj
      rcases hfile : files[j]? with _ | f
      · simp [List.getElem?_eq_none_iff.1 hfile]
      · simp [(List.getElem?_eq_some_iff.1 hfile).1]
    · rw [if_neg hj, ih]
      simp [Ne.symm hj]

/-- Once all files have been scanned, in whatever order, the slots hold what they give. -/
theorem fill_of_all {done : List ℕ} (h : ∀ k < files.length, k ∈ done) :
    fill scan files done = files.map fun f => some (scan f) := by
  refine List.ext_getElem? fun k => ?_
  rw [getElem?_fill, List.getElem?_map]
  rcases hfile : files[k]? with _ | f
  · rfl
  · simp [h k (List.getElem?_eq_some_iff.1 hfile).1]

/-- The violations of one outcome. -/
def Outcome.violations : Outcome → List Violation
  | .scanned vs => vs
  | .skipped _ => []

/-- The diagnostics of one outcome. -/
def Outcome.diagnostics : Outcome → List Diagnostic
  | .scanned _ => []
  | .skipped d => [d]

theorem violationsOf_map :
    violationsOf (files.map fun f => some (scan f)) =
      files.flatMap fun f => (scan f).violations := by
  rw [violationsOf, List.flatMap_map]
  congr 1
  funext f
  rcases scan f with vs | d
  · rfl
  · rfl

theorem diagnosticsOf_map :
    diagnosticsOf (files.map fun f => some (scan f)) =
      files.flatMap fun f => (scan f).diagnostics := by
  induction files with
  | nil => rfl
  | cons f files ih =>
    rw [List.flatMap_cons, ← ih]
    rcases h : scan f with vs | d
    · simp [diagnosticsOf, h, Outcome.diagnostics]
    · simp [diagnosticsOf, h, Outcome.diagnostics]

/-- Every file is counted once, as scanned or as skipped. -/
theorem scannedCount_add_skipped :
    scannedCount (files.map fun f => some (scan f)) +
      (diagnosticsOf (files.map fun f => some (scan f))).length = files.length := by
  induction files with
  | nil => rfl
  | cons f files ih =>
    rw [List.length_cons, ← ih]
    rcases h : scan f with vs | d
    · simp [scannedCount, diagnosticsOf, h]
      omega
    · simp [scannedCount, diagnosticsOf, h]
      omega

end Slots

/-! ## Time -/

/-- A pool scans each file once at most, and its schedule has them in their order. -/
theorem sublist_poolDone (clock : Clock) (limit : Binary64) (count : ℕ) :
    (poolDone clock limit count).Sublist (List.range count) := by
  rw [poolDone]
  split_ifs
  · exact List.Sublist.refl _
  · exact List.nil_sublist _
  · exact List.filter_sublist

/-- A schedule that is not cut short scans all files. -/
theorem done_of_not_timedOut {o : ScanOptions} {clock : Clock} {count : ℕ}
    (h : (schedule o clock count).timedOut = false) :
    (schedule o clock count).done = List.range count := by
  revert h
  rw [schedule]
  split_ifs with hworkers
  · unfold inlineSchedule
    split
    · simp
    · dsimp only
      split_ifs
      · simp
      · simp
  · unfold parallelSchedule
    split
    · simp
    · next limit _ =>
      intro hall
      refine (sublist_poolDone clock limit count).eq_of_length_le ?_
      simpa using hall

/-- Without a timeout no schedule is cut short. -/
theorem not_timedOut_of_none {o : ScanOptions} (h : o.timeout = none) (clock : Clock) (count : ℕ) :
    (schedule o clock count).timedOut = false := by
  rw [schedule, h]
  split_ifs
  · rfl
  · rfl

/-- A schedule is cut short where what is left of the timeout is too long to be waited for. -/
theorem timedOut_of_waitIsRefused {o : ScanOptions} {clock : Clock} {count : ℕ}
    (h : waitIsRefused o clock count = true) : (schedule o clock count).timedOut = true := by
  rw [waitIsRefused] at h
  rcases hlimit : o.timeout with _ | limit
  · rw [hlimit] at h
    cases h
  · rw [hlimit] at h
    simp only [Bool.and_eq_true, decide_eq_true_eq, Bool.not_eq_true'] at h
    obtain ⟨⟨⟨hworkers, hcount⟩, hpool⟩, hlong⟩ := h
    have hdone : poolDone clock limit count = [] := by
      rw [poolDone, hpool, hlong]
      rfl
    rw [schedule, if_neg (by omega), hlimit, parallelSchedule, hdone]
    exact decide_eq_true (show 0 < count by omega)

/-- Where a schedule is not cut short, the wait is not refused. -/
theorem waitIsRefused_of_not_timedOut {o : ScanOptions} {clock : Clock} {count : ℕ}
    (h : (schedule o clock count).timedOut = false) : waitIsRefused o clock count = false := by
  rw [Bool.eq_false_iff]
  intro hrefused
  rw [timedOut_of_waitIsRefused hrefused] at h
  cases h

/-! ## One file -/

/-- What a file adds to a report: its violations, or one diagnostic that says why it is passed
over. -/
inductive Contribution (tree : FileTree) (here : Place) (w : Whitelist) (maxFileSize : ℤ)
    (f : SourceFile) : List Violation → List Diagnostic → Prop
  | scanned {b t vs} (hread : tree.read here f.path = .ok b) (hsize : (b.length : ℤ) ≤ maxFileSize)
      (hzero : 0 ∉ b.take 8000) (htext : Utf8.dropByteOrderMark b = Utf8.encode t)
      (hvs : f.Finds w t vs) : Contribution tree here w maxFileSize f vs []
  | cannotOpen {fault} (hread : tree.read here f.path = .error fault) :
      Contribution tree here w maxFileSize f []
        [Diagnostic.unreadable f.relativePath fault.cause.message]
  | tooLarge {b} (hread : tree.read here f.path = .ok b) (hsize : maxFileSize < b.length) :
      Contribution tree here w maxFileSize f []
        [Diagnostic.unreadable f.relativePath
          ("larger than ".toList ++ Text.integer maxFileSize ++ " bytes".toList)]
  | zeroByte {b} (hread : tree.read here f.path = .ok b) (hsize : (b.length : ℤ) ≤ maxFileSize)
      (hzero : 0 ∈ b.take 8000) :
      Contribution tree here w maxFileSize f []
        [Diagnostic.binary f.relativePath "NUL byte found, treating as binary".toList]
  | notUtf8 {b fault} (hread : tree.read here f.path = .ok b)
      (hsize : (b.length : ℤ) ≤ maxFileSize) (hzero : 0 ∉ b.take 8000)
      (htext : ∀ t, Utf8.dropByteOrderMark b ≠ Utf8.encode t)
      (hfault : Utf8.decode (Utf8.dropByteOrderMark b) = .error fault) :
      Contribution tree here w maxFileSize f []
        [Diagnostic.binary f.relativePath
          ("not valid UTF-8 (".toList ++ fault.reason.message ++ [')'])]

/-- Scanning a file gives what the file contributes. -/
theorem contribution_scanFile (tree : FileTree) (here : Place) (w : Whitelist) (maxFileSize : ℤ)
    (f : SourceFile) :
    Contribution tree here w maxFileSize f
      (scanFile tree here w.index maxFileSize f).violations
      (scanFile tree here w.index maxFileSize f).diagnostics := by
  rw [scanFile, SourceText.read]
  rcases hread : tree.read here f.path with fault | b
  · exact .cannotOpen hread
  · dsimp only
    rw [SourceText.ofBytes]
    split_ifs with hsize hzero
    · exact .tooLarge hread hsize
    · exact .zeroByte hread (not_lt.1 hsize) (List.contains_iff_mem.1 hzero)
    · have hzero' : 0 ∉ b.take 8000 := fun h => hzero (List.contains_iff_mem.2 h)
      rcases hdecode : Utf8.decode (Utf8.dropByteOrderMark b) with fault | t
      · refine .notUtf8 hread (not_lt.1 hsize) hzero' (fun t ht => ?_) hdecode
        rw [Utf8.decode_eq_ok_iff.2 ht] at hdecode
        cases hdecode
      · refine .scanned hread (not_lt.1 hsize) hzero' (Utf8.decode_eq_ok_iff.1 hdecode) ?_
        have hfinds := f.finds_links w t
        rw [← Whitelist.filter_index, ← Violation.ofText_eq_links] at hfinds
        exact hfinds

/-! ## A scan -/

section Scan

variable {tree : FileTree} {here : Place} {target : Target} {w : Whitelist} {o : ScanOptions}
  {clock : Clock} {now : Binary64}

theorem files_of_not_waitIsRefused {found : List SourceFile × List Diagnostic}
    (h : waitIsRefused o clock found.1.length = false) :
    files tree here target w o clock now found =
      carryOut tree here target w o clock now found (schedule o clock found.1.length) := by
  rw [files, h]
  rfl

/-- A scan of files gives a report exactly if it ends in time and nothing keeps the files from being
read, and the report is put together from what each of them gives. -/
theorem files_eq_ok_iff {found : List SourceFile × List Diagnostic} {report : Report} :
    files tree here target w o clock now found = .ok report ↔
      (schedule o clock found.1.length).timedOut = false ∧
        limitFault? tree here o found.1 (List.range found.1.length) = none ∧
        report = assemble
          (found.1.map fun f => some (scanFile tree here w.index o.maxFileSize f))
          (w.diagnostics ++ found.2) target.roots
          (clock.elapsed (schedule o clock found.1.length).readings) now := by
  rcases htime : (schedule o clock found.1.length).timedOut with _ | _
  · rw [files_of_not_waitIsRefused (waitIsRefused_of_not_timedOut htime), carryOut, htime,
      done_of_not_timedOut htime, fill_of_all _ _ fun k hk => List.mem_range.2 hk]
    rcases limitFault? tree here o found.1 (List.range found.1.length) with _ | f
    · simp [eq_comm]
    · simp
  · rcases hrefused : waitIsRefused o clock found.1.length with _ | _
    · rw [files_of_not_waitIsRefused hrefused, carryOut, htime]
      rcases limitFault? tree here o found.1 (schedule o clock found.1.length).done with _ | f
      · simp
      · simp
    · rw [files, hrefused]
      simp

/-- The report of a scan that ends in time, from what the files give. -/
theorem files_eq_ok {found : List SourceFile × List Diagnostic} {report : Report}
    (h : files tree here target w o clock now found = .ok report) :
    report.violations =
        found.1.flatMap (fun f => (scanFile tree here w.index o.maxFileSize f).violations) ∧
      report.diagnostics = w.diagnostics ++ found.2 ++
        found.1.flatMap (fun f => (scanFile tree here w.index o.maxFileSize f).diagnostics) ∧
      report.filesSkipped = (found.1.flatMap fun f =>
        (scanFile tree here w.index o.maxFileSize f).diagnostics).length ∧
      report.filesScanned + report.filesSkipped = found.1.length := by
  obtain ⟨-, -, rfl⟩ := files_eq_ok_iff.1 h
  refine ⟨violationsOf_map _ _, ?_, ?_, ?_⟩
  · rw [← diagnosticsOf_map]
    rfl
  · rw [← diagnosticsOf_map]
    rfl
  · rw [← scannedCount_add_skipped (scanFile tree here w.index o.maxFileSize)]
    rfl

theorem exists_report_of_files {found : List SourceFile} {met : List Diagnostic}
    (htime : (schedule o clock found.length).timedOut = false)
    (hlimit : limitFault? tree here o found (List.range found.length) = none) :
    ∃ report, files tree here target w o clock now (found, met) = .ok report :=
  ⟨_, files_eq_ok_iff.2 ⟨htime, hlimit, rfl⟩⟩

/-- A scan whose walk succeeds ends with a report if its schedule is not cut short and its size limit
can be asked for. -/
theorem exists_report_of_find {found : List SourceFile × List Diagnostic}
    (hfind : find tree here target = .ok found)
    (htime : (schedule o clock found.1.length).timedOut = false) (hlow : -2 ≤ o.maxFileSize)
    (hhigh : o.maxFileSize < 2 ^ 63 - 34) :
    ∃ report, run tree here target w o clock now = .ok report := by
  have hlimit : SourceText.limitFault? o.maxFileSize = none := by
    rw [SourceText.limitFault?, SourceText.maxRow, if_neg (by omega), if_neg (by omega),
      if_neg (by omega)]
  rw [run, hfind]
  exact exists_report_of_files htime (by rw [limitFault?, hlimit])

/-- A scan of roots that lead to folders, with patterns that can be read, finds its files.  If it
ends in time, the report holds what each of them contributes, in their order, after what the
whitelist and the walk passed over; and it ends in time, with the memory that it asks for, unless the
schedule is cut short or the size limit is beyond what can be asked for. -/
theorem report_of_contributions
    (hroots : ∀ r ∈ target.roots,
      ∃ place, tree.reach here (Path.ofText r).text = .ok (place, .folder))
    (hpatterns : ∀ p ∈ target.included ++ target.effectiveExcludes, ∃ ts, Glob.parse p = .ok ts) :
    ∃ found met, find tree here target = .ok (found, met) ∧
      (∀ report, run tree here target w o clock now = .ok report →
        ∃ parts, List.Forall₂
            (fun f part => Contribution tree here w o.maxFileSize f part.1 part.2) found parts ∧
          report.violations = parts.flatMap Prod.fst ∧
          report.diagnostics = w.diagnostics ++ met ++ parts.flatMap Prod.snd ∧
          report.filesSkipped = (parts.flatMap Prod.snd).length ∧
          report.filesScanned + report.filesSkipped = found.length) ∧
      ((schedule o clock found.length).timedOut = false → -2 ≤ o.maxFileSize →
        o.maxFileSize < 2 ^ 63 - 34 → ∃ report, run tree here target w o clock now = .ok report) := by
  have hincluded : ∀ p ∈ target.included, ∃ ts, Glob.parse p = .ok ts :=
    fun p hp => hpatterns p (List.mem_append_left _ hp)
  have hexcluded : ∀ p ∈ target.effectiveExcludes, ∃ ts, Glob.parse p = .ok ts :=
    fun p hp => hpatterns p (List.mem_append_right _ hp)
  obtain ⟨⟨found, met⟩, hfind⟩ := Walk.roots_eq_ok hroots hincluded hexcluded
  have hrun : run tree here target w o clock now =
      files tree here target w o clock now (found, met) := by
    rw [run, find, hfind]
  refine ⟨found, met, hfind, ?_, exists_report_of_find hfind⟩
  intro report hreport
  rw [hrun] at hreport
  obtain ⟨hviolations, hdiagnostics, hskipped, hcount⟩ := files_eq_ok hreport
  let scan := scanFile tree here w.index o.maxFileSize
  refine ⟨found.map fun f => ((scan f).violations, (scan f).diagnostics), ?_, ?_, ?_, ?_, hcount⟩
  · rw [List.forall₂_map_right_iff, List.forall₂_same]
    exact fun f _ => contribution_scanFile tree here w o.maxFileSize f
  · rw [hviolations, List.flatMap_map]
  · rw [hdiagnostics, List.flatMap_map]
  · rw [hskipped, List.flatMap_map]

end Scan

/-! ## A tree with one link -/

theorem not_mem_trimBuildDir {c : Char} {buildDir : Text} (hdefault : c ∉ defaultBuildDir)
    (h : c ∉ buildDir) : c ∉ trimBuildDir buildDir := by
  rw [trimBuildDir]
  split_ifs
  · exact hdefault
  · intro hmem
    have hright := (List.dropWhile_sublist _).subset (List.mem_reverse.1 hmem)
    exact h ((List.dropWhile_sublist _).subset (List.mem_reverse.1 hright))

/-- The patterns that are always excluded can be read if the name of the build folder has no
opening bracket. -/
theorem exists_parse_defaultExcludes {buildDir : Text} (h : '[' ∉ buildDir) :
    ∀ p ∈ defaultExcludes buildDir, ∃ ts, Glob.parse p = .ok ts := by
  have hbuild : '[' ∉ trimBuildDir buildDir ++ "/**".toList := by
    simp [not_mem_trimBuildDir (by decide) h]
  intro p hp
  refine Glob.exists_parse_of_noClass ?_
  simp only [defaultExcludes, List.mem_cons, List.not_mem_nil, or_false] at hp
  rcases hp with rfl | rfl | rfl | rfl | rfl | rfl | rfl
  · decide
  · decide
  · decide
  · decide
  · exact hbuild
  · decide
  · decide

/-- A folder `r` with one file `a`, which holds one link. -/
def oneLink : FileTree :=
  ⟨[(["r".toList], .folder), (["r".toList, "a".toList], .file (.bytes (Utf8.encode insecure)))],
    [], []⟩

theorem reach_oneLink :
    oneLink.reach [] (Path.ofText "r".toList).text = .ok (["r".toList], .folder) := by
  simp [FileTree.reach, FileTree.lookup, FileTree.walk, oneLink, FileTree.node?,
    FileTree.lookupNames, Path.ofText, Path.text, Path.startOf, PathStart.ofSlashes, Path.namesOf,
    Path.startText, Text.fields, Text.join, FileTree.linkStart, Path.isAbsolute, Path.dot, Path.dotDot,
    Utf8.encode, Utf8.encodeChar, FileTree.maxPathBytes, FileTree.maxNameBytes]
  rfl

/-- All files beneath the folder `r`. -/
def everything : Target := ⟨["r".toList], [], [], defaultBuildDir⟩

/-- No timeout, and the default numbers, with four processors. -/
def unhurried : ScanOptions := ⟨none, SourceText.defaultMaxFileSize, none, 4⟩

theorem report_of_contributions_oneLink :
    ∃ found met, find oneLink [] everything = .ok (found, met) ∧
      (∀ report, run oneLink [] everything .empty unhurried (.stepping .zero) .zero = .ok report →
        ∃ parts, List.Forall₂ (fun f part => Contribution oneLink [] .empty
            unhurried.maxFileSize f part.1 part.2) found parts ∧
          report.violations = parts.flatMap Prod.fst) ∧
      ∃ report, run oneLink [] everything .empty unhurried (.stepping .zero) .zero = .ok report := by
  obtain ⟨found, met, hfind, hreport, hends⟩ :=
    @report_of_contributions oneLink [] everything .empty unhurried (.stepping .zero) .zero
      (fun r hr => ⟨_, List.mem_singleton.1 hr ▸ reach_oneLink⟩)
      (exists_parse_defaultExcludes (by decide))
  refine ⟨found, met, hfind, fun report h => ?_, ?_⟩
  · obtain ⟨parts, hparts, hviolations, -⟩ := hreport report h
    exact ⟨parts, hparts, hviolations⟩
  · exact hends (not_timedOut_of_none rfl _ _) (by decide) (by decide)

end InsecureLinks.Scan
