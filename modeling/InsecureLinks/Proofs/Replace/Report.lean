import Mathlib
import InsecureLinks.Proofs.Replace.File
import InsecureLinks.Proofs.Replace.Visits
import InsecureLinks.Proofs.Scan.Place
import InsecureLinks.Proofs.Scan.Reading

/-!
# Securing what a scan has found

Replacing after a scan makes every scanned file what it should be and leaves everything else as it
was (`report_secures`).  The files with violations are gone through one after another; as they are at
different places, what is done to one leaves the others as the scan has seen them
(`Edit.Fits.put`).
-/

namespace InsecureLinks

/-! ## The byte order mark -/

namespace Utf8

/-- The byte order mark that opens some bytes, as a text. -/
def markOf (b : Bytes) : Text := if byteOrderMark.isPrefixOf b then [byteOrderMarkChar] else []

/-- Bytes are their byte order mark and what follows it. -/
theorem eq_encode_markOf {b : Bytes} {t : Text} (h : dropByteOrderMark b = encode t) :
    b = encode (markOf b ++ t) := by
  rw [encode_append, markOf, ← h, dropByteOrderMark]
  split_ifs with hprefix
  · obtain ⟨rest, rfl⟩ := List.isPrefixOf_iff_prefix.1 hprefix
    rw [encode_byteOrderMarkChar, List.drop_left]
  · rw [encode_nil, List.nil_append]

/-- What follows the place of a byte order mark begins with none, unless there was one. -/
theorem markOf_cases {b : Bytes} {t : Text} (h : dropByteOrderMark b = encode t) :
    markOf b = [byteOrderMarkChar] ∨ markOf b = [] ∧ t.head? ≠ some byteOrderMarkChar := by
  rw [dropByteOrderMark] at h
  rw [markOf]
  split_ifs at h ⊢ with hprefix
  · exact .inl rfl
  · refine .inr ⟨rfl, fun hhead => hprefix ?_⟩
    rw [List.isPrefixOf_iff_prefix, h, mark_prefix_encode_iff]
    exact hhead

end Utf8

namespace Replace

open FileTree
open Scan (dropByteOrderMark_of_ofBytes exists_bytes_of_read exists_text_of_violations
  find_of_run_eq_ok violations_scanFile)

/-! ## One file -/

/-- A file to be changed, with what it holds. -/
structure Edit where
  file : SourceFile
  content : Content
  text : Text

/-- The bytes of a file once it is what it should be. -/
def Edit.bytes (w : Whitelist) (e : Edit) : Utf8.Bytes :=
  Utf8.encode (Utf8.markOf e.content.toBytes ++ e.file.rewritten w e.text)

/-- Whether the file can be read in a tree, and holds that text. -/
structure Edit.Fits (tree : FileTree) (here : Place) (e : Edit) : Prop where
  readable : routeOf here e.file.path ∉ tree.unreadable
  reach : tree.reach here e.file.path.text = .ok (e.file.place here, .file e.content)
  text : Utf8.dropByteOrderMark e.content.toBytes = Utf8.encode e.text

section Edit

variable {w : Whitelist} {tree : FileTree} {here : Place} {e : Edit}

theorem Edit.Fits.node? (h : e.Fits tree here) :
    tree.node? (e.file.place here) = some (.file e.content) := node?_of_reach h.reach

theorem Edit.Fits.place_ne_nil (h : e.Fits tree here) : e.file.place here ≠ [] :=
  ne_nil_of_file h.node?

/-- Changing a file does not matter to a file at another place. -/
theorem Edit.Fits.put {e' : Edit} (h : e.Fits tree here) (h' : e'.Fits tree here)
    (hne : e'.file.place here ≠ e.file.place here) (b : Utf8.Bytes) :
    e'.Fits (tree.put (e.file.place here) (.file (.bytes b))) here where
  readable := by
    rw [put_unreadable]
    exact h'.readable
  reach := by
    have hkeeps : Keeps tree (tree.put (e.file.place here) (.file (.bytes b))) :=
      keeps_put (by simp [h.node?]) (by simp [h.node?]) _
    refine hkeeps.reach_eq_ok h'.reach ?_ (by simp)
    rw [node?_put tree h.place_ne_nil, if_neg hne, h'.node?]
  text := h'.text

/-- Replacing the violations of a file makes it what it should be. -/
theorem inFile_violations (h : e.Fits tree here) (hne : e.file.violations w e.text ≠ []) :
    inFile false here e.file.path (e.file.violations w e.text) tree =
      .ok (tree.put (e.file.place here) (.file (.bytes (e.bytes w))),
        (e.file.violations w e.text).length) := by
  have hcontains : tree.unreadable.contains (routeOf here e.file.path) = false := by
    rw [Bool.eq_false_iff, Ne, List.contains_iff_mem]
    exact h.readable
  have hread : tree.read here e.file.path = .ok e.content.toBytes := by
    rw [FileTree.read, hcontains, h.reach]
    rfl
  have hdecode : Utf8.decode e.content.toBytes =
      .ok (Utf8.markOf e.content.toBytes ++ e.text) :=
    Utf8.decode_eq_ok_iff.2 (Utf8.eq_encode_markOf h.text)
  have hcount : ¬((e.file.violations w e.text).length = 0 ∨ false = true) := by
    simpa using hne
  have hlookup := reach_eq_ok.1 h.reach
  rw [inFile, hread]
  dsimp only
  rw [hdecode]
  dsimp only
  rw [inText_violations w e.file e.text (Utf8.markOf_cases h.text)]
  simp only [bind, Except.bind]
  rw [if_neg hcount, FileTree.write, hcontains, hlookup]
  rfl

/-! ## One file after another -/

/-- Whether the second tree is the first with some files made what they should be. -/
structure Made (w : Whitelist) (here : Place) (es : List Edit) (tree tree' : FileTree) : Prop where
  unlistable : tree'.unlistable = tree.unlistable
  unreadable : tree'.unreadable = tree.unreadable
  changed : ∀ e ∈ es, tree'.node? (e.file.place here) = some (.file (.bytes (e.bytes w)))
  rest : ∀ p, p ∉ es.map (fun e => e.file.place here) → tree'.node? p = tree.node? p

/-- Going through files at different places makes each of them what it should be, and changes
nothing else. -/
theorem inGroups_edits {es : List Edit} (hfits : ∀ e ∈ es, e.Fits tree here)
    (hne : ∀ e ∈ es, e.file.violations w e.text ≠ [])
    (hnodup : (es.map fun e => e.file.place here).Nodup) :
    ∃ tree', inGroups false here tree (es.map fun e =>
          ((e.file.root, e.file.relativePath), e.file.violations w e.text)) =
        (tree', .ok ⟨es.map fun e => e.file.path.text,
          (es.map fun e => (e.file.violations w e.text).length).sum⟩) ∧
      Made w here es tree tree' := by
  induction es generalizing tree with
  | nil => exact ⟨tree, rfl, rfl, rfl, by simp, fun _ _ => rfl⟩
  | cons e es ih =>
    obtain ⟨hnew, hnodup⟩ := List.nodup_cons.1 hnodup
    have he := hfits e (by simp)
    have hother : ∀ e' ∈ es, e'.file.place here ≠ e.file.place here := by
      intro e' he' h
      exact hnew (List.mem_map.2 ⟨e', he', h⟩)
    obtain ⟨tree', hok, hmade⟩ :=
      @ih (tree.put (e.file.place here) (.file (.bytes (e.bytes w))))
        (fun e' he' => he.put (hfits e' (by simp [he'])) (hother e' he') _)
        (fun e' he' => hne e' (by simp [he'])) hnodup
    refine ⟨tree', ?_, by simpa using hmade.unlistable, by simpa using hmade.unreadable, ?_, ?_⟩
    · have hcount : (e.file.violations w e.text).length ≠ 0 := by
        simpa using hne e (by simp)
      let g := ((e.file.root, e.file.relativePath), e.file.violations w e.text)
      have hvisit : inFile false here (groupPath g) g.2 tree = .ok (_, _) :=
        inFile_violations he (hne e (by simp))
      refine (inGroups_cons hvisit hok).trans ?_
      rw [Replaced.add, if_neg hcount]
      rfl
    · intro e' he'
      rcases List.mem_cons.1 he' with rfl | he'
      · rw [hmade.rest _ hnew, node?_put tree he.place_ne_nil, if_pos rfl]
      · exact hmade.changed e' he'
    · intro p hp
      simp only [List.map_cons, List.mem_cons, not_or] at hp
      rw [hmade.rest p hp.2, node?_put tree he.place_ne_nil, if_neg hp.1]

end Edit

/-! ## A report -/

section Report

variable {tree : FileTree} {here : Place} {w : Whitelist} {maxFileSize : ℤ}

/-- A file that a walk has found and that is scanned as text can be changed. -/
theorem fits_of_read {f : SourceFile} {content : Content} {t : Text}
    (hreach : tree.reach here f.path.text =
      if maxPathBytes < (Utf8.encode f.path.text).length then .error .nameTooLong
      else .ok (f.place here, .file content))
    (h : SourceText.read tree here maxFileSize f.path = .ok t) :
    (Edit.mk f content t).Fits tree here := by
  obtain ⟨b, hread, htext⟩ := exists_bytes_of_read h
  rw [FileTree.read] at hread
  split_ifs at hread with hreadable
  rw [hreach] at hread
  split_ifs at hread hreach with hlong
  dsimp only at hread
  cases hread
  exact ⟨fun h => hreadable (List.contains_iff_mem.2 h), hreach, dropByteOrderMark_of_ofBytes htext⟩

theorem rewritten_of_no_violations {f : SourceFile} {t : Text} (h : f.violations w t = []) :
    f.rewritten w t = t := by
  rw [SourceFile.violations_eq, List.flatMap_eq_nil_iff] at h
  have hlines : (Text.cutLines t).zipIdx.flatMap (fun p => f.rewrittenLine w p ++ p.1.2) =
      (Text.cutLines t).zipIdx.flatMap fun p => p.1.1 ++ p.1.2 := by
    rw [List.flatMap_def, List.flatMap_def]
    refine congrArg List.flatten (List.map_congr_left fun p hp => ?_)
    rw [SourceFile.rewrittenLine_of_no_violations (h p hp)]
  have hfst : (Text.cutLines t).zipIdx.flatMap (fun p => p.1.1 ++ p.1.2) =
      ((Text.cutLines t).zipIdx.map Prod.fst).flatMap fun p => p.1 ++ p.2 := by
    rw [List.flatMap_map]
  rw [SourceFile.rewritten, hlines, hfst, List.zipIdx_map_fst]
  exact Text.flatMap_cutLines t

theorem key_of_mem_violations {f : SourceFile} {v : Violation}
    (h : v ∈ (Scan.scanFile tree here w.index maxFileSize f).violations) :
    v.key = (f.root, f.relativePath) := by
  obtain ⟨t, ht⟩ := exists_text_of_violations (List.ne_nil_of_mem h)
  rw [violations_scanFile ht] at h
  obtain ⟨n, line, terminator, k, -, -, rfl⟩ := SourceFile.mem_links.1 (List.mem_filter.1 h).1
  rfl

theorem violations_ne_nil_of_mem {f : SourceFile} {fs : List SourceFile}
    (h : f ∈ fs.filter fun f => !(Scan.scanFile tree here w.index maxFileSize f).violations.isEmpty) :
    f ∈ fs ∧ (Scan.scanFile tree here w.index maxFileSize f).violations ≠ [] := by
  simpa using h

theorem exists_edits {P : Edit → Prop} {fs : List SourceFile}
    (h : ∀ f ∈ fs, ∃ e : Edit, e.file = f ∧ P e) :
    ∃ es : List Edit, es.map Edit.file = fs ∧ ∀ e ∈ es, P e := by
  induction fs with
  | nil => exact ⟨[], rfl, by simp⟩
  | cons f fs ih =>
    obtain ⟨e, rfl, he⟩ := h f (by simp)
    obtain ⟨es, rfl, hes⟩ := ih fun f hf => h f (by simp [hf])
    exact ⟨e :: es, rfl, by simpa using ⟨he, hes⟩⟩

/-! ## What a report calls for -/

/-- Whether files are to be changed because of violations: each of those that have some, in
order, with what a scan has read of it. -/
structure Due (tree : FileTree) (here : Place) (w : Whitelist) (maxFileSize : ℤ)
    (found : List SourceFile) (es : List Edit) : Prop where
  files : es.map Edit.file = found.filter fun f =>
    !(Scan.scanFile tree here w.index maxFileSize f).violations.isEmpty
  fits : ∀ e ∈ es, e.Fits tree here
  read : ∀ e ∈ es, SourceText.read tree here maxFileSize e.file.path = .ok e.text

section Due

variable {target : Target} {found : List SourceFile} {met : List Diagnostic} {es : List Edit}

theorem exists_due (ht : tree.IsSound) (hlinks : tree.IsLinkFree)
    (hfind : Scan.find tree here target = .ok (found, met)) :
    ∃ es, Due tree here w maxFileSize found es := by
  have hedits : ∀ f ∈ found.filter fun f =>
      !(Scan.scanFile tree here w.index maxFileSize f).violations.isEmpty, ∃ e : Edit, e.file = f ∧
        e.Fits tree here ∧ SourceText.read tree here maxFileSize e.file.path = .ok e.text := by
    intro f hf
    obtain ⟨hf, hne⟩ := violations_ne_nil_of_mem hf
    obtain ⟨content, -, hreach⟩ := Walk.exists_content_of_mem_found ht hlinks hfind hf
    obtain ⟨t, hread⟩ := exists_text_of_violations hne
    exact ⟨⟨f, content, t⟩, rfl, fits_of_read hreach hread, hread⟩
  obtain ⟨es, hes, hfits⟩ := exists_edits hedits
  exact ⟨es, hes, fun e he => (hfits e he).1, fun e he => (hfits e he).2⟩

namespace Due

variable (h : Due tree here w maxFileSize found es)

include h

theorem mem {e : Edit} (he : e ∈ es) : e.file ∈ found ∧ e.file.violations w e.text ≠ [] := by
  have hmem : e.file ∈ es.map Edit.file := List.mem_map_of_mem he
  rw [h.files] at hmem
  obtain ⟨hfound, hne⟩ := violations_ne_nil_of_mem hmem
  rw [violations_scanFile (h.read e he)] at hne
  exact ⟨hfound, hne⟩

/-- A file that has violations is to be changed. -/
theorem exists_edit {f : SourceFile} {t : Text} (hf : f ∈ found)
    (hread : SourceText.read tree here maxFileSize f.path = .ok t) (hne : f.violations w t ≠ []) :
    ∃ e ∈ es, e.file = f ∧ e.text = t := by
  have hmem : f ∈ es.map Edit.file := by
    rw [h.files, List.mem_filter, violations_scanFile hread]
    exact ⟨hf, by simpa using hne⟩
  obtain ⟨e, he, rfl⟩ := List.mem_map.1 hmem
  have heread := h.read e he
  rw [hread] at heread
  cases heread
  exact ⟨e, he, rfl, rfl⟩

/-- A list that is the same for an edit and its file is that of the files. -/
theorem map_eq {α : Type} {fromEdit : Edit → α} {fromFile : SourceFile → α}
    (hsame : ∀ e ∈ es, fromEdit e = fromFile e.file) :
    es.map fromEdit = (found.filter fun f =>
      !(Scan.scanFile tree here w.index maxFileSize f).violations.isEmpty).map fromFile := by
  rw [← h.files, List.map_map]
  exact List.map_congr_left hsame

theorem nodup_places (hnodup : (found.map (SourceFile.place here)).Nodup) :
    (es.map fun e => e.file.place here).Nodup := by
  rw [h.map_eq fun e _ => rfl]
  exact hnodup.sublist (List.filter_sublist.map _)

section Violations

variable {report : Report} (hviolations : report.violations = found.flatMap fun f =>
  (Scan.scanFile tree here w.index maxFileSize f).violations)

include hviolations

theorem byFile_eq (hkeys : (found.map fun f => (f.root, f.relativePath)).Nodup) :
    report.byFile = es.map fun e =>
      ((e.file.root, e.file.relativePath), e.file.violations w e.text) := by
  rw [Report.byFile, hviolations,
    Groups.of_flatMap (fun f _ v hv => key_of_mem_violations hv) hkeys]
  refine (h.map_eq fun e he => ?_).symm
  rw [violations_scanFile (h.read e he)]

theorem violationCount_eq :
    report.violationCount = (es.map fun e => (e.file.violations w e.text).length).sum := by
  rw [Report.violationCount, hviolations, ← length_flatMap_filter]
  refine congrArg List.sum (h.map_eq fun e he => ?_).symm
  rw [violations_scanFile (h.read e he)]

theorem paths_eq : (es.map fun e => e.file.path.text) =
    (found.filter fun f => (f.root, f.relativePath) ∈ report.violations.map Violation.key).map
      fun f => f.path.text := by
  let path (f : SourceFile) : Text := f.path.text
  refine (h.map_eq fun e _ => show e.file.path.text = path e.file from rfl).trans ?_
  refine congrArg (List.map path) (List.filter_congr fun f hf => ?_)
  rw [Bool.eq_iff_iff, decide_eq_true_iff, hviolations, List.mem_map]
  constructor
  · intro hne
    obtain ⟨v, hv⟩ := List.exists_mem_of_ne_nil
      (Scan.scanFile tree here w.index maxFileSize f).violations (by simpa using hne)
    exact ⟨v, List.mem_flatMap.2 ⟨f, hf, hv⟩, key_of_mem_violations hv⟩
  · rintro ⟨v, hv, hkey⟩
    obtain ⟨g, -, hv⟩ := List.mem_flatMap.1 hv
    -- A violation names its file.
    rw [key_of_mem_violations hv] at hkey
    obtain rfl : g = f := by
      cases g
      cases f
      simpa using hkey
    simpa using List.ne_nil_of_mem hv

end Violations

/-- What a scanned file holds once the files that are due have been made what they should be. -/
theorem exists_content {tree' : FileTree} {f : SourceFile} {content : Content} {t : Text}
    (hmade : Made w here es tree tree') (hnodup : (found.map (SourceFile.place here)).Nodup)
    (hf : f ∈ found) (hfits : (Edit.mk f content t).Fits tree here)
    (hread : SourceText.read tree here maxFileSize f.path = .ok t) :
    ∃ content', tree'.node? (f.place here) = some (.file content') ∧
      content'.toBytes = Utf8.encode (Utf8.markOf content.toBytes ++ f.rewritten w t) := by
  by_cases hempty : f.violations w t = []
  · -- Nothing is to be changed, and nothing is: no file that is changed is at this place.
    have hother : f.place here ∉ es.map fun e => e.file.place here := by
      intro hmem
      obtain ⟨e, he, hplace⟩ := List.mem_map.1 hmem
      obtain ⟨hfound, hne⟩ := h.mem he
      obtain rfl := List.inj_on_of_nodup_map hnodup hfound hf hplace
      have heread := h.read e he
      rw [hread] at heread
      cases heread
      exact hne hempty
    refine ⟨content, (hmade.rest _ hother).trans hfits.node?, ?_⟩
    rw [rewritten_of_no_violations hempty]
    exact Utf8.eq_encode_markOf hfits.text
  · obtain ⟨e, he, rfl, rfl⟩ := h.exists_edit hf hread hempty
    have hcontent : e.content = content := by
      have hnode := (h.fits e he).node?
      rw [hfits.node?] at hnode
      cases hnode
      rfl
    refine ⟨_, hmade.changed e he, ?_⟩
    rw [Content.toBytes, Edit.bytes, hcontent]

end Due

end Due

variable {target : Target} {o : ScanOptions} {clock : Clock} {now : Binary64} {report : Report}

/-- Replacing after a scan that ends in time succeeds.  Each scanned file then holds its old bytes,
but with every link secure on the lines that the whitelist does not allow; nothing else in the tree
is changed.  As many links are counted as the report has violations, and the files that are
named are those with violations, in the order of the report. -/
theorem report_secures (ht : tree.IsSound) (hlinks : tree.IsLinkFree)
    (hapart : target.roots.Pairwise (Walk.Apart here))
    (hrun : Scan.run tree here target w o clock now = .ok report) :
    ∃ found met tree', Scan.find tree here target = .ok (found, met) ∧
      Replace.report false here report tree = (tree', .ok
        ⟨(found.filter fun f => (f.root, f.relativePath) ∈ report.violations.map Violation.key).map
          fun f => f.path.text, report.violationCount⟩) ∧
      tree'.unlistable = tree.unlistable ∧ tree'.unreadable = tree.unreadable ∧
      (∀ f ∈ found, ∀ content t, tree.node? (f.place here) = some (.file content) →
        SourceText.read tree here o.maxFileSize f.path = .ok t →
        content.toBytes = Utf8.encode (Utf8.markOf content.toBytes ++ t) ∧
        ∃ content', tree'.node? (f.place here) = some (.file content') ∧
          content'.toBytes = Utf8.encode (Utf8.markOf content.toBytes ++ f.rewritten w t)) ∧
      ∀ p, (∀ f ∈ found, ∀ t, SourceText.read tree here o.maxFileSize f.path = .ok t →
        f.place here ≠ p) → tree'.node? p = tree.node? p := by
  obtain ⟨found, met, hfind, hviolations⟩ := find_of_run_eq_ok hrun
  have hnodup := Walk.nodup_places ht hlinks hfind hapart
  have hkeys : (found.map fun f => (f.root, f.relativePath)).Nodup := by
    refine List.Nodup.of_map (fun k => routeOf here ((Path.ofText k.1).join k.2)) ?_
    rw [List.map_map]
    exact hnodup
  obtain ⟨es, hdue⟩ := exists_due ht hlinks hfind
  obtain ⟨tree', hok, hmade⟩ := inGroups_edits hdue.fits (fun e he => (hdue.mem he).2)
    (hdue.nodup_places hnodup)
  rw [← hdue.byFile_eq hviolations hkeys, hdue.paths_eq hviolations,
    ← hdue.violationCount_eq hviolations] at hok
  refine ⟨found, met, tree', hfind, hok, hmade.unlistable, hmade.unreadable, ?_, ?_⟩
  · intro f hf content t hnode hread
    obtain ⟨content', hnode', hreach⟩ := Walk.exists_content_of_mem_found ht hlinks hfind hf
    obtain rfl : content = content' := by
      rw [hnode] at hnode'
      cases hnode'
      rfl
    have hfits := fits_of_read hreach hread
    exact ⟨Utf8.eq_encode_markOf hfits.text, hdue.exists_content hmade hnodup hf hfits hread⟩
  · intro p hp
    refine hmade.rest p fun hmem => ?_
    obtain ⟨e, he, rfl⟩ := List.mem_map.1 hmem
    exact hp e.file (hdue.mem he).1 e.text (hdue.read e he) rfl

end Report

/-! ## The link of a small tree -/

theorem isSound_oneLink : Scan.oneLink.IsSound where
  nodup := by decide
  parent := by
    intro p hp
    simp only [Scan.oneLink, List.mem_cons, List.not_mem_nil, or_false] at hp
    rcases hp with rfl | rfl
    · exact ⟨[], _, rfl, isName_singleton (by decide) (by decide), rfl⟩
    · exact ⟨["r".toList], _, rfl, isName_singleton (by decide) (by decide), rfl⟩

theorem isLinkFree_oneLink : Scan.oneLink.IsLinkFree := by
  refine isLinkFree_of_nodes fun p hp target => ?_
  simp only [Scan.oneLink, List.mem_cons, List.not_mem_nil, or_false] at hp
  rcases hp with rfl | rfl <;> simp

theorem exists_report_oneLink : ∃ report, Scan.run Scan.oneLink [] Scan.everything .empty
    Scan.unhurried (.stepping .zero) .zero = .ok report := by
  have hroots : ∀ r ∈ Scan.everything.roots, ∃ place,
      Scan.oneLink.reach [] (Path.ofText r).text = .ok (place, .folder) :=
    fun r hr => ⟨_, List.mem_singleton.1 hr ▸ Scan.reach_oneLink⟩
  obtain ⟨found, hfound⟩ := @Walk.roots_eq_ok Scan.oneLink [] [] _ _ hroots (by simp)
    (@Scan.exists_parse_defaultExcludes defaultBuildDir (by decide))
  exact Scan.exists_report_of_find hfound (Scan.not_timedOut_of_none rfl _ _) (by decide) (by decide)

theorem report_secures_oneLink :
    ∃ report found met tree', Scan.find Scan.oneLink [] Scan.everything = .ok (found, met) ∧
      Replace.report false [] report Scan.oneLink = (tree', .ok
        ⟨(found.filter fun f => (f.root, f.relativePath) ∈ report.violations.map Violation.key).map
          fun f => f.path.text, report.violationCount⟩) := by
  obtain ⟨report, hrun⟩ := exists_report_oneLink
  obtain ⟨found, met, tree', hfind, hreplaced, -⟩ :=
    report_secures isSound_oneLink isLinkFree_oneLink (List.pairwise_singleton _ _) hrun
  exact ⟨report, found, met, tree', hfind, hreplaced⟩

end Replace

end InsecureLinks
