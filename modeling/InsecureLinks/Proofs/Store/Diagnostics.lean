import Mathlib
import InsecureLinks.Proofs.Store.CachedScan
import InsecureLinks.Proofs.Whitelist.Appending

/-!
# The diagnostics of a kept report

What the whitelist and the walk could not read does not go into a key: only the entries, the files and
the target do.  So a report that is taken from the history file tells of the lines, the folders and the
links that were passed over when it was kept, which may be others by now (`hit_of_cluttered`).  It tells
of the same skipped files as a new scan, if all files can be read and none holds a zero
(`diagnostics_of_hit`).

The roots are got back from the key unless one of them is the word that ends the list of roots there.
-/

namespace InsecureLinks

namespace Fingerprint

/-- The word that ends the roots in what is hashed for a target. -/
def rootsEnd : Text := "include".toList

theorem join_before_end {rs rs' rest rest' : List Text} (hrest : rest ≠ []) (hrest' : rest' ≠ [])
    (hrs : ∀ r ∈ rs, separator ∉ r ∧ r ≠ rootsEnd) (hrs' : ∀ r ∈ rs', separator ∉ r ∧ r ≠ rootsEnd)
    (h : Text.join [separator] (rs ++ rootsEnd :: rest) =
      Text.join [separator] (rs' ++ rootsEnd :: rest')) : rs = rs' := by
  have hword : separator ∉ rootsEnd := by decide
  have hends {t t' : Text} {ts ts' : List Text} (ht : separator ∉ t) (ht' : separator ∉ t')
      (hts : ts ≠ []) (hts' : ts' ≠ [])
      (hjoin : Text.join [separator] (t :: ts) = Text.join [separator] (t' :: ts')) :
      t = t' ∧ Text.join [separator] ts = Text.join [separator] ts' := by
    rw [Text.join_cons hts, Text.join_cons hts'] at hjoin
    exact append_sep_inj ht ht' hjoin
  induction rs generalizing rs' with
  | nil =>
    cases rs' with
    | nil => rfl
    | cons r' rs' =>
      obtain ⟨hr', hne'⟩ := hrs' r' (List.mem_cons_self ..)
      exact absurd (hends hword hr' hrest (by simp) h).1.symm hne'
  | cons r rs ih =>
    obtain ⟨hr, hne⟩ := hrs r (List.mem_cons_self ..)
    cases rs' with
    | nil => exact absurd (hends hr hword (by simp) hrest' h).1 hne
    | cons r' rs' =>
      obtain ⟨hr', -⟩ := hrs' r' (List.mem_cons_self ..)
      obtain ⟨rfl, hjoin⟩ := hends hr hr' (by simp) (by simp) h
      rw [ih (fun q hq => hrs q (List.mem_cons_of_mem _ hq))
        (fun q hq => hrs' q (List.mem_cons_of_mem _ hq)) hjoin]

/-- The roots are got back from the fields of a target. -/
theorem roots_inj {t t' : Target} {m m' : ℤ} (ht : ∀ r ∈ t.roots, separator ∉ r ∧ r ≠ rootsEnd)
    (ht' : ∀ r ∈ t'.roots, separator ∉ r ∧ r ≠ rootsEnd)
    (h : Text.join [separator] (targetFields t m) = Text.join [separator] (targetFields t' m')) :
    t.roots = t'.roots := by
  have hfields : ∀ (t : Target) (m : ℤ), targetFields t m =
      ("roots".toList :: t.roots) ++ rootsEnd :: (t.included ++
        ("exclude".toList :: t.effectiveExcludes ++ ["max".toList, Text.integer m])) := by
    intro t m
    rw [targetFields, List.append_assoc, List.append_assoc]
    rfl
  have hfirst : separator ∉ "roots".toList ∧ "roots".toList ≠ rootsEnd := by decide
  rw [hfields, hfields] at h
  exact (List.cons.inj (join_before_end (by simp) (by simp) (List.forall_mem_cons.2 ⟨hfirst, ht⟩)
    (List.forall_mem_cons.2 ⟨hfirst, ht'⟩) h)).2

end Fingerprint

namespace Scan

/-- Why a file is skipped depends on what can be read of it and on the size limit, but not on the
whitelist. -/
theorem skips_of_read {tree tree' : FileTree} {here : Place} {index index' : Whitelist.Index} {m : ℤ}
    {f : SourceFile} (hread : tree.read here f.path = tree'.read here f.path) :
    (scanFile tree here index m f).diagnostics = (scanFile tree' here index' m f).diagnostics := by
  rw [scanFile, scanFile, SourceText.read, SourceText.read, hread]
  rcases tree'.read here f.path with e | b
  · rfl
  · dsimp only
    rcases SourceText.ofBytes m b with s | t
    · rfl
    · rfl

theorem roots_of_files {tree : FileTree} {here : Place} {target : Target} {w : Whitelist}
    {o : ScanOptions} {clock : Clock} {now : Binary64} {found : List SourceFile × List Diagnostic}
    {report : Report} (h : files tree here target w o clock now found = .ok report) :
    report.roots = target.roots := by
  obtain ⟨-, -, rfl⟩ := files_eq_ok_iff.1 h
  rfl

end Scan

namespace Store.CachedScan

/-- Whether every file that was found can be read and holds no zero, and no name in the tree holds
one. -/
structure Workspace.IsReadable {here : Place} (s : Workspace here) : Prop where
  lacks : s.tree.Lacks Fingerprint.separator
  reads : ∀ f ∈ s.found, ∃ b, s.tree.read here f.path = .ok b ∧ 0 ∉ b

namespace Workspace

variable {here : Place} {s s' : Workspace here}

theorem IsReadable.isClear (h : s.IsReadable) : s.subject.IsClear :=
  ⟨Walk.not_mem_of_find h.lacks (by decide) (by decide) s.finds, h.reads⟩

/-- The files, their contents and the size limit are got back from a key. -/
theorem IsReadable.found_of_key_eq (h : s.IsReadable) (h' : s'.IsReadable) (hkey : s.key = s'.key)
    (hcollision : s.NoCollision s') :
    s.found = s'.found ∧ s.request.options.maxFileSize = s'.request.options.maxFileSize ∧
      ∀ f ∈ s.found, s.tree.read here f.path = s'.tree.read here f.path := by
  obtain ⟨htarget, hbytes, -⟩ := @Fingerprint.Subject.messages_of_key_eq s.subject s'.subject hkey
    ⟨hcollision.target, hcollision.files, hcollision.whitelist⟩
  obtain ⟨hfound, hsame⟩ := h.isClear.files_inj h'.isClear hbytes
  refine ⟨hfound, Fingerprint.maxFileSize_inj htarget, fun f hf => ?_⟩
  obtain ⟨b, hb, hb'⟩ := hsame f hf
  exact hb.trans hb'.symm

/-- The roots are got back from a key, unless one of them is the word that ends them. -/
theorem IsReadable.roots_of_key_eq (h : s.IsReadable) (h' : s'.IsReadable) (hkey : s.key = s'.key)
    (hcollision : s.NoCollision s')
    (hroots : ∀ r ∈ s.request.target.roots ++ s'.request.target.roots, r ≠ Fingerprint.rootsEnd) :
    s.request.target.roots = s'.request.target.roots := by
  obtain ⟨htarget, -, -⟩ := @Fingerprint.Subject.messages_of_key_eq s.subject s'.subject hkey
    ⟨hcollision.target, hcollision.files, hcollision.whitelist⟩
  have hzero := Walk.not_mem_root_of_find h.lacks (by decide) (by decide) s.finds
  have hzero' := Walk.not_mem_root_of_find h'.lacks (by decide) (by decide) s'.finds
  exact Fingerprint.roots_inj (fun r hr => ⟨hzero r hr, hroots r (List.mem_append_left _ hr)⟩)
    (fun r hr => ⟨hzero' r hr, hroots r (List.mem_append_right _ hr)⟩) htarget

end Workspace

/-- A report that is taken from the history file for files that can be read and hold no zeros, compared
with that of a new scan: both tell of the same skipped files, after what their own whitelists and walks
passed over, and they have the same roots unless one of these is the word that ends the roots in what
is hashed. -/
theorem diagnostics_of_hit {here : Place} {first second : Workspace here} {left tree : FileTree}
    {clock clock' : Clock} {now now' : Binary64} {report reused : Report}
    (hmiss : run Sha256.hex here first.request clock now first.tree = (left, .ok (report, false)))
    (hkept : kept here second.request.file second.tree = kept here first.request.file left)
    (hhit : run Sha256.hex here second.request clock' now' second.tree = (tree, .ok (reused, true)))
    (hkey : first.key = second.key)
    (hquiet : ∀ f ∈ first.found,
      (lookUp here first.request.file first.key first.tree).1.read here f.path =
        first.tree.read here f.path)
    (hcollision : first.NoCollision second) (hreadable : first.IsReadable)
    (hreadable' : second.IsReadable) (htime : second.request.options.timeout = none)
    (clock'' : Clock) (now'' : Binary64) :
    ∃ fresh skips, Scan.run second.tree here second.request.target second.request.whitelist
        second.request.options clock'' now'' = .ok fresh ∧
      reused.diagnostics = first.request.whitelist.diagnostics ++ first.met ++ skips ∧
      fresh.diagnostics = second.request.whitelist.diagnostics ++ second.met ++ skips ∧
      skips = second.found.flatMap (fun f => (Scan.scanFile second.tree here
        second.request.whitelist.index second.request.options.maxFileSize f).diagnostics) ∧
      ((∀ r ∈ first.request.target.roots ++ second.request.target.roots,
        r ≠ Fingerprint.rootsEnd) → reused.roots = fresh.roots) := by
  obtain rfl := hit_eq_kept hmiss hkept hhit hkey
  obtain ⟨hfiles, -⟩ := files_of_miss hmiss
  obtain ⟨hfound, hsize, hsame⟩ := hreadable.found_of_key_eq hreadable' hkey hcollision
  have hread : ∀ f ∈ second.found,
      (lookUp here first.request.file first.key first.tree).1.read here f.path =
        second.tree.read here f.path := by
    intro f hf
    rw [← hfound] at hf
    rw [hquiet f hf, hsame f hf]
  rw [hfound] at hfiles
  -- The first run got past the limits with the same contents, so the new scan does as well.
  have hlimit : Scan.limitFault? second.tree here second.request.options second.found
      (List.range second.found.length) = none := by
    rw [← Scan.limitFault?_of_canOpen hsize fun f hf =>
      Scan.canOpen_of_reading (congrArg Except.toOption (hread f hf)),
      Scan.limitFault?_of_files_eq_ok hfiles]
  obtain ⟨fresh, hfresh⟩ := @Scan.exists_report_of_files second.tree here second.request.target
    second.request.whitelist second.request.options clock'' now'' second.found second.met
    (Scan.not_timedOut_of_none htime clock'' _) hlimit
  refine ⟨fresh, _, by rw [Scan.run, second.finds]; exact hfresh, ?_, (Scan.files_eq_ok hfresh).2.1,
    rfl, fun hroots => ?_⟩
  · rw [(Scan.files_eq_ok hfiles).2.1, hsize]
    refine congrArg _ (List.flatMap_congr fun f hf => ?_)
    exact Scan.skips_of_read (hread f hf)
  · rw [Scan.roots_of_files hfiles, Scan.roots_of_files hfresh]
    exact hreadable.roots_of_key_eq hreadable' hkey hcollision hroots

/-! ## A folder that has been tidied -/

/-- The folder `r` with one file and a link that leads nowhere. -/
def cluttered : FileTree :=
  ⟨[(["r".toList], .folder), (["r".toList, "a".toList], .file (.bytes link)),
    (["r".toList, "l".toList], .link "gone".toList)], [], []⟩

/-- What a walk of it passes over. -/
def clutter : List Diagnostic := [.unreadable "l".toList "dangling symbolic link".toList]

theorem find_cluttered :
    Scan.find cluttered [] Scan.everything = .ok ([⟨"r".toList, "a".toList⟩], clutter) := by cbv

/-- The workspace with that folder and a whitelist of one malformed line. -/
def untidy : Workspace [] where
  tree := cluttered
  request := ⟨Scan.everything, Whitelist.oneMalformed, Scan.unhurried, request.file⟩
  found := [⟨"r".toList, "a".toList⟩]
  met := clutter
  finds := find_cluttered

theorem lookUp_cluttered (key : Text) :
    lookUp [] request.file key cluttered = (withHistory cluttered [] 1, .ok none) := by cbv

theorem put_cluttered (key : Text) (document : Value) :
    withFile [] request.file (ReportCache.put key document) (withHistory cluttered [] 1) =
      (withHistory cluttered [⟨key, document⟩] 2, .ok ()) := by cbv

theorem kept_cluttered (rows : List CacheRow) (n : ℕ) :
    kept [] request.file (withHistory (oneFile link) rows n) =
      kept [] request.file (withHistory cluttered rows n) := by cbv

/-- The workspace with nothing but the file in the folder, once a report has been kept, and with the
whitelist that allows nothing. -/
def tidied (report : Report) : Workspace [] where
  tree := withHistory (oneFile link) [⟨untidy.key, (Report.Draft.of report).toValue⟩] 2
  request := request
  found := [⟨"r".toList, "a".toList⟩]
  met := []
  finds := find_oneFile link _ _

theorem read_cluttered (rows : List CacheRow) (n : ℕ) :
    (withHistory cluttered rows n).read [] (SourceFile.path ⟨"r".toList, "a".toList⟩) = .ok link := by
  cbv

theorem read_untidy : untidy.tree.read [] (SourceFile.path ⟨"r".toList, "a".toList⟩) = .ok link := by
  change cluttered.read [] _ = _
  cbv

theorem read_tidied (report : Report) :
    (tidied report).tree.read [] (SourceFile.path ⟨"r".toList, "a".toList⟩) = .ok link :=
  read_oneFile link _ _

/-- A workspace in which the one file holds a link is readable. -/
theorem isReadable_of_link {s : Workspace []} (hlacks : s.tree.Lacks Fingerprint.separator)
    (hfound : s.found = [⟨"r".toList, "a".toList⟩])
    (hread : s.tree.read [] (SourceFile.path ⟨"r".toList, "a".toList⟩) = .ok link) :
    s.IsReadable := by
  refine ⟨hlacks, fun f hf => ?_⟩
  rw [hfound, List.mem_singleton] at hf
  rw [hf]
  exact ⟨link, hread, by decide⟩

theorem isReadable_untidy : untidy.IsReadable :=
  isReadable_of_link (FileTree.lacks_of_nodes (by decide)) rfl read_untidy

theorem isReadable_tidied (report : Report) : (tidied report).IsReadable := by
  have hlacks : (oneFile link).Lacks Fingerprint.separator := FileTree.lacks_of_nodes (by decide)
  exact isReadable_of_link (hlacks.put (by simp) (by decide) _) rfl (read_tidied report)

/-- The whitelist and the walk do not go into the key. -/
theorem bytes_untidy (report : Report) :
    untidy.targetBytes = (tidied report).targetBytes ∧
      untidy.filesBytes = (tidied report).filesBytes ∧
      untidy.whitelistBytes = (tidied report).whitelistBytes := by
  have hfiles : untidy.found.flatMap (Fingerprint.fileBytes untidy.tree []) =
      (tidied report).found.flatMap (Fingerprint.fileBytes (tidied report).tree []) := by
    refine List.flatMap_congr fun f hf => Fingerprint.fileBytes_congr ?_
    rw [List.mem_singleton.1 hf, read_untidy, read_tidied]
  have htarget : untidy.targetBytes = (tidied report).targetBytes := rfl
  refine ⟨htarget, ?_, rfl⟩
  rw [Workspace.filesBytes, Workspace.filesBytes, Fingerprint.filesBytes, Fingerprint.filesBytes,
    htarget, hfiles]

theorem key_untidy (report : Report) : untidy.key = (tidied report).key := by
  obtain ⟨-, hfiles, hwhitelist⟩ := bytes_untidy report
  rw [Workspace.key_eq, Workspace.key_eq, hfiles, hwhitelist]

/-- The first run scans the file and keeps the report, and the second takes it. -/
theorem runs_untidy : ∃ report,
    Scan.files (withHistory cluttered [] 1) [] untidy.request.target untidy.request.whitelist
        untidy.request.options (.stepping .zero) .zero (untidy.found, clutter) = .ok report ∧
      run Sha256.hex [] untidy.request (.stepping .zero) .zero cluttered =
        (withHistory cluttered [⟨untidy.key, (Report.Draft.of report).toValue⟩] 2,
          .ok (report, false)) ∧
      run Sha256.hex [] request (.stepping .zero) .zero (tidied report).tree =
        ((tidied report).tree, .ok (report, true)) := by
  obtain ⟨report, hfiles⟩ := @Scan.exists_report_of_files (withHistory cluttered [] 1) []
    untidy.request.target untidy.request.whitelist untidy.request.options (.stepping .zero) .zero
    untidy.found clutter (Scan.not_timedOut_of_none rfl _ _) rfl
  refine ⟨report, hfiles, ?_, ?_⟩
  · exact @run_of_miss [] untidy _ _ _ _ _ (lookUp_cluttered _) hfiles (put_cluttered _ _)
  · refine @run_of_hit [] (tidied report) _ _ _ _ (lookUp_of_get ?_)
    rw [← key_untidy report]
    exact get_oneFile link _ _

/-- A file that holds a link is not skipped. -/
theorem skips_of_link {tree : FileTree}
    (hread : tree.read [] (SourceFile.path ⟨"r".toList, "a".toList⟩) = .ok link)
    (index : Whitelist.Index) : (Scan.scanFile tree [] index request.options.maxFileSize
      ⟨"r".toList, "a".toList⟩).diagnostics = [] := by
  have htext : SourceText.ofBytes request.options.maxFileSize link = .ok insecure := by cbv
  rw [Scan.scanFile, SourceText.read, hread]
  dsimp only
  rw [htext]
  rfl

/-- A report that was kept for a folder with more in it and a whitelist with a malformed line is taken
for the tidied folder without a whitelist, and tells of the line and the link that are not there any
more. -/
theorem hit_of_cluttered : ∃ report fresh,
    untidy.IsReadable ∧ (tidied report).IsReadable ∧
    Whitelist.ofText [] Whitelist.malformed = .ok untidy.request.whitelist ∧
    run Sha256.hex [] untidy.request (.stepping .zero) .zero untidy.tree =
      (withHistory cluttered [⟨untidy.key, (Report.Draft.of report).toValue⟩] 2,
        .ok (report, false)) ∧
    run Sha256.hex [] request (.stepping .zero) .zero (tidied report).tree =
      ((tidied report).tree, .ok (report, true)) ∧
    Scan.run (tidied report).tree [] request.target request.whitelist request.options
      (.stepping .zero) .zero = .ok fresh ∧
    report.diagnostics = untidy.request.whitelist.diagnostics ++ clutter ∧ fresh.diagnostics = [] := by
  obtain ⟨report, hfiles, hmiss, hhit⟩ := runs_untidy
  obtain ⟨fresh, hfresh⟩ := @Scan.exists_report_of_files (tidied report).tree [] request.target
    request.whitelist request.options (.stepping .zero) .zero (tidied report).found []
    (Scan.not_timedOut_of_none rfl _ _) rfl
  refine ⟨report, fresh, isReadable_untidy, isReadable_tidied report, rfl, hmiss, hhit, ?_, ?_, ?_⟩
  · rw [Scan.run, show request.target = (tidied report).request.target from rfl,
      (tidied report).finds]
    exact hfresh
  · rw [(Scan.files_eq_ok hfiles).2.1]
    refine (congrArg _ ?_).trans (List.append_nil _)
    exact (List.flatMap_singleton _ _).trans (skips_of_link (read_cluttered _ _) _)
  · rw [(Scan.files_eq_ok hfresh).2.1]
    exact (List.flatMap_singleton _ _).trans (skips_of_link (read_tidied report) _)

theorem diagnostics_of_hit_cluttered : ∃ report fresh skips,
    run Sha256.hex [] untidy.request (.stepping .zero) .zero untidy.tree =
      (withHistory cluttered [⟨untidy.key, (Report.Draft.of report).toValue⟩] 2,
        .ok (report, false)) ∧
    run Sha256.hex [] request (.stepping .zero) .zero (tidied report).tree =
      ((tidied report).tree, .ok (report, true)) ∧
    Scan.run (tidied report).tree [] request.target request.whitelist request.options
      (.stepping .zero) .zero = .ok fresh ∧
    report.diagnostics = untidy.request.whitelist.diagnostics ++ clutter ++ skips ∧
    fresh.diagnostics = skips ∧ report.roots = fresh.roots := by
  obtain ⟨report, -, hmiss, hhit⟩ := runs_untidy
  obtain ⟨htarget, hfiles, hwhitelist⟩ := bytes_untidy report
  have hquiet : ∀ f ∈ untidy.found,
      (lookUp [] untidy.request.file untidy.key untidy.tree).1.read [] f.path =
        untidy.tree.read [] f.path := by
    intro f hf
    rw [List.mem_singleton.1 hf, read_untidy, show untidy.tree = cluttered from rfl,
      show untidy.request.file = request.file from rfl, lookUp_cluttered, read_cluttered]
  obtain ⟨fresh, skips, hfresh, hreused, hskips, -, hroots⟩ := @diagnostics_of_hit [] untidy
    (tidied report) _ _ _ _ _ _ _ _ hmiss (kept_cluttered _ _) hhit (key_untidy report) hquiet
    ⟨fun _ => htarget, fun _ => hfiles, fun _ => hwhitelist⟩ isReadable_untidy
    (isReadable_tidied report) rfl (.stepping .zero) .zero
  refine ⟨report, fresh, skips, hmiss, hhit, hfresh, hreused, hskips, hroots fun r hr => ?_⟩
  have hr : r ∈ ["r".toList, "r".toList] := hr
  obtain rfl : r = "r".toList := by simpa using hr
  decide

end Store.CachedScan

end InsecureLinks
