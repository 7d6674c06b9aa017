import Mathlib
import InsecureLinks.Proofs.Replace.Count
import InsecureLinks.Proofs.Replace.Report
import InsecureLinks.Proofs.Scan.Agreement
import InsecureLinks.Proofs.Scan.Growth

/-!
# Scanning again

After replacing, a scan of the same target finds no violation any more (`report_leaves_none`).  Links
may give one file several names, and the whitelist may allow under one name what it does not allow
under another, so a file may be changed more than once.

What carries this through is that at any time every file is what it was with some lines secured
(`Partly`).  Securing the violations of one name adds its lines to these and takes none away, and a
name has no violations left once all its lines are among them (`Clears`).
-/

namespace InsecureLinks.Replace

open FileTree
open Scan (dropByteOrderMark_of_ofBytes exists_file_of_violations find_of_run_eq_ok read_of_reach
  violations_scanFile)

variable {tree tree₁ tree₂ : FileTree} {here : Place} {w : Whitelist} {m : ℤ}
  {chosen chosen' : Place → ℕ → Bool} {f : SourceFile}

/-! ## Files that are secured in part -/

/-- Whether the second tree is the first with some lines secured in the files that are text. -/
structure Partly (m : ℤ) (tree tree' : FileTree) (chosen : Place → ℕ → Bool) : Prop where
  outline : SameOutline tree tree'
  text : ∀ p c t, tree.node? p = some (.file c) → SourceText.ofBytes m c.toBytes = .ok t →
    ∃ c', tree'.node? p = some (.file c') ∧
      c'.toBytes = Utf8.encode (Utf8.markOf c.toBytes ++ securedWhere (chosen p) t)
  other : ∀ p c s, tree.node? p = some (.file c) → SourceText.ofBytes m c.toBytes = .error s →
    tree'.node? p = some (.file c)

theorem Partly.refl (m : ℤ) (tree : FileTree) : Partly m tree tree fun _ _ => false where
  outline := .refl tree
  text p c t hnode htext := by
    refine ⟨c, hnode, ?_⟩
    rw [securedWhere_none]
    exact Utf8.eq_encode_markOf (dropByteOrderMark_of_ofBytes htext)
  other p c s hnode _ := hnode

/-- The lines that are secured once some lines of the file at a place are as well. -/
def alsoIn (chosen : Place → ℕ → Bool) (p : Place) (lines : ℕ → Bool) : Place → ℕ → Bool :=
  fun q k => chosen q k || decide (q = p) && lines k

section AlsoIn

variable {p : Place} {lines : ℕ → Bool}

theorem alsoIn_self : alsoIn chosen p lines p = fun k => chosen p k || lines k := by
  funext k
  simp [alsoIn]

theorem alsoIn_of_ne {q : Place} (h : q ≠ p) : alsoIn chosen p lines q = chosen q := by
  funext k
  simp [alsoIn, h]

theorem alsoIn_of_chosen {q : Place} {k : ℕ} (h : chosen q k = true) :
    alsoIn chosen p lines q k = true := by simp [alsoIn, h]

variable {c : Content} {t : Text}

/-- Lines that are secured already, or hold no link, may as well be counted among the secured. -/
theorem Partly.alsoIn_of_eq (h : Partly m tree tree₁ chosen) (hnode : tree.node? p = some (.file c))
    (ht : SourceText.ofBytes m c.toBytes = .ok t)
    (hsame : securedWhere (alsoIn chosen p lines p) t = securedWhere (chosen p) t) :
    Partly m tree tree₁ (alsoIn chosen p lines) where
  outline := h.outline
  text q c' u hq hu := by
    rcases eq_or_ne q p with rfl | hqp
    · rw [hnode] at hq
      cases hq
      rw [ht] at hu
      cases hu
      rw [hsame]
      exact h.text q c t hnode ht
    · rw [alsoIn_of_ne hqp]
      exact h.text q c' u hq hu
  other := h.other

/-- Lines are secured by writing the file that they are in. -/
theorem Partly.put (h : Partly m tree tree₁ chosen) (hnode : tree.node? p = some (.file c))
    (ht : SourceText.ofBytes m c.toBytes = .ok t) :
    Partly m tree (tree₁.put p (.file (.bytes (Utf8.encode
      (Utf8.markOf c.toBytes ++ securedWhere (alsoIn chosen p lines p) t)))))
        (alsoIn chosen p lines) where
  outline := by
    obtain ⟨c₁, hnode₁, -⟩ := h.text p c t hnode ht
    exact h.outline.trans (sameOutline_put hnode₁ _)
  text q c' u hq hu := by
    rw [node?_put tree₁ (ne_nil_of_file hnode)]
    rcases eq_or_ne q p with rfl | hqp
    · rw [hnode] at hq
      cases hq
      rw [ht] at hu
      cases hu
      exact ⟨_, if_pos rfl, rfl⟩
    · rw [if_neg hqp, alsoIn_of_ne hqp]
      exact h.text q c' u hq hu
  other q c' s hq hs := by
    rw [node?_put tree₁ (ne_nil_of_file hnode), if_neg]
    · exact h.other q c' s hq hs
    · rintro rfl
      rw [hnode] at hq
      cases hq
      rw [ht] at hs
      cases hs

end AlsoIn

/-! ## What a file needs -/

/-- Whether all lines in which a scanned file has violations are among the secured ones. -/
def Clears (w : Whitelist) (tree : FileTree) (here : Place) (m : ℤ) (f : SourceFile)
    (chosen : Place → ℕ → Bool) : Prop :=
  ∀ p c t, tree.reach here f.path.text = .ok (p, .file c) →
    SourceText.read tree here m f.path = .ok t → ∀ k, f.offends w t k = true → chosen p k = true

theorem Clears.mono (h : Clears w tree here m f chosen)
    (hmore : ∀ p k, chosen p k = true → chosen' p k = true) : Clears w tree here m f chosen' :=
  fun p c t hreach ht k hk => hmore p k (h p c t hreach ht k hk)

/-- A file whose lines with violations are all secured has no violations any more. -/
theorem Partly.violations_eq_nil (h : Partly m tree tree₁ chosen)
    (hclears : Clears w tree here m f chosen) :
    (Scan.scanFile tree₁ here w.index m f).violations = [] := by
  by_contra hne
  obtain ⟨p, c₁, u, hreadable, hreach, hu, hviolations⟩ := exists_file_of_violations hne
  rw [hviolations] at hne
  rw [h.outline.unreadable] at hreadable
  -- The file was a file before, at the same place.
  obtain ⟨x, hreach₀, halike⟩ := h.outline.symm.grows.reach_eq_ok hreach
  obtain ⟨c, rfl⟩ : ∃ c, x = .file c := by
    cases halike with
    | file _ c => exact ⟨c, rfl⟩
  have hnode := node?_of_reach hreach₀
  have hnode₁ := node?_of_reach hreach
  rcases ht : SourceText.ofBytes m c.toBytes with s | t
  · rw [h.other p c s hnode ht] at hnode₁
    cases hnode₁
    rw [ht] at hu
    cases hu
  · obtain ⟨c', hnode', hbytes⟩ := h.text p c t hnode ht
    rw [hnode'] at hnode₁
    cases hnode₁
    obtain rfl : u = securedWhere (chosen p) t := by
      have hu := dropByteOrderMark_of_ofBytes hu
      have ht := dropByteOrderMark_of_ofBytes ht
      have hmark := Utf8.markOf_cases ht
      rw [← head_securedWhere (chosen p) t] at hmark
      have hcut := Utf8.encode_injective ((Utf8.eq_encode_markOf hu).symm.trans hbytes)
      have hcuts := congrArg cutMark hcut
      rw [cutMark_append (Utf8.markOf_cases hu), cutMark_append hmark] at hcuts
      exact (Prod.mk.inj hcuts).2
    have hread : SourceText.read tree here m f.path = .ok t := by
      rw [SourceText.read, read_of_reach hreadable hreach₀]
      exact ht
    exact hne (SourceFile.violations_securedWhere (hclears p c t hreach₀ hread))

/-! ## One file after another -/

section File

variable {p : Place} {c : Content} {t : Text} {vs : List Violation}
  (hreadable : tree.unreadable.contains (routeOf here f.path) = false)
  (hreach : tree.reach here f.path.text = .ok (p, .file c))
  (ht : SourceText.ofBytes m c.toBytes = .ok t)
  (hvs : ∀ v, v ∈ vs ↔ v ∈ f.violations w t)

include hreadable hreach ht hvs

/-- Securing a file that is secured in part finds the links that are left in its lines with
violations.  What is read is the text with some lines secured, and these stay secured. -/
theorem inFile_eq (h : Partly m tree tree₁ chosen) (dryRun : Bool) :
    inFile dryRun here f.path vs tree₁ =
      .ok (if linksWhere (fun k => f.offends w t k && !chosen p k) t = 0 ∨ dryRun = true then tree₁
        else tree₁.put p (.file (.bytes (Utf8.encode
          (Utf8.markOf c.toBytes ++ securedWhere (alsoIn chosen p (f.offends w t) p) t)))),
        linksWhere (fun k => f.offends w t k && !chosen p k) t) := by
  obtain ⟨c₁, hnode₁, hbytes⟩ := h.text p c t (node?_of_reach hreach) ht
  have hreach₁ := h.outline.grows.keeps.reach_eq_ok hreach hnode₁ (by simp)
  rw [← h.outline.unreadable] at hreadable
  have htext := inText_count (Utf8.markOf_cases (dropByteOrderMark_of_ofBytes ht)) hvs (chosen p)
  rw [← alsoIn_self] at htext
  rw [inFile, read_of_reach hreadable hreach₁]
  dsimp only
  rw [hbytes, Utf8.decode_encode]
  dsimp only
  rw [htext]
  simp only [bind, Except.bind, pure, Except.pure]
  split_ifs
  · rfl
  · rw [FileTree.write, hreadable, reach_eq_ok.1 hreach₁]
    rfl

/-- Securing a file adds its lines with violations to those that are secured. -/
theorem inFile_secures (h : Partly m tree tree₁ chosen) :
    ∃ tree₂, inFile false here f.path vs tree₁ =
        .ok (tree₂, linksWhere (fun k => f.offends w t k && !chosen p k) t) ∧
      Partly m tree tree₂ (alsoIn chosen p (f.offends w t)) := by
  have hnode := node?_of_reach hreach
  have hfile := inFile_eq hreadable hreach ht hvs h false
  by_cases hcount : linksWhere (fun k => f.offends w t k && !chosen p k) t = 0
  · rw [if_pos (.inl hcount)] at hfile
    refine ⟨tree₁, hfile, h.alsoIn_of_eq hnode ht ?_⟩
    have htext := inText_count (Utf8.markOf_cases (dropByteOrderMark_of_ofBytes ht)) hvs (chosen p)
    rw [hcount, ← alsoIn_self] at htext
    exact List.append_cancel_left (inText_of_zero htext)
  · rw [if_neg (by simpa using hcount)] at hfile
    exact ⟨_, hfile, h.put hnode ht⟩

omit hvs in
theorem clears_alsoIn : Clears w tree here m f (alsoIn chosen p (f.offends w t)) := by
  intro q c' u hreach' hu k hk
  rw [SourceText.read, read_of_reach hreadable hreach] at hu
  rw [hreach] at hreach'
  cases hreach'
  obtain rfl : t = u := Except.ok.inj (ht.symm.trans hu)
  simp [alsoIn, hk]

end File

/-- Securing a file leaves no violation in it and brings none back elsewhere. -/
theorem inFile_partly (h : Partly m tree tree₁ chosen) {vs : List Violation} (hne : vs ≠ [])
    (hvs : ∀ v, v ∈ vs ↔ v ∈ (Scan.scanFile tree here w.index m f).violations) :
    ∃ tree₂ n chosen', inFile false here f.path vs tree₁ = .ok (tree₂, n) ∧
      Partly m tree tree₂ chosen' ∧ (∀ p k, chosen p k = true → chosen' p k = true) ∧
      Clears w tree here m f chosen' := by
  obtain ⟨v, hv⟩ := List.exists_mem_of_ne_nil vs hne
  obtain ⟨p, c, t, hreadable, hreach, ht, hviolations⟩ :=
    exists_file_of_violations (List.ne_nil_of_mem ((hvs v).1 hv))
  rw [hviolations] at hvs
  obtain ⟨tree₂, hfile, hpartly⟩ := inFile_secures hreadable hreach ht hvs h
  exact ⟨tree₂, _, _, hfile, hpartly, fun q k => alsoIn_of_chosen, clears_alsoIn hreadable hreach ht⟩

/-- Going through the violations of files clears each of them, whatever names they have. -/
theorem inGroups_partly {gs : Groups (Text × Text) Violation} (h : Partly m tree tree₁ chosen)
    (hgs : ∀ g ∈ gs, g.2 ≠ [] ∧
      ∀ v, v ∈ g.2 ↔ v ∈ (Scan.scanFile tree here w.index m ⟨g.1.1, g.1.2⟩).violations) :
    ∃ tree₂ r chosen', inGroups false here tree₁ gs = (tree₂, .ok r) ∧
      Partly m tree tree₂ chosen' ∧ (∀ p k, chosen p k = true → chosen' p k = true) ∧
      ∀ g ∈ gs, Clears w tree here m ⟨g.1.1, g.1.2⟩ chosen' := by
  induction gs generalizing tree₁ chosen with
  | nil => exact ⟨tree₁, _, chosen, rfl, h, fun _ _ => id, by simp⟩
  | cons g gs ih =>
    obtain ⟨⟨hne, hvs⟩, hgs⟩ := List.forall_mem_cons.1 hgs
    obtain ⟨tree₂, n, chosen₂, hfile, h₂, hmore, hclears⟩ := inFile_partly h hne hvs
    obtain ⟨tree₃, r, chosen₃, hrest, h₃, hmore₃, hclears₃⟩ := ih h₂ hgs
    exact ⟨tree₃, _, chosen₃, inGroups_cons hfile hrest, h₃,
      fun p k hk => hmore₃ p k (hmore p k hk),
      List.forall_mem_cons.2 ⟨hclears.mono hmore₃, hclears₃⟩⟩

/-! ## A report -/

section Report

variable {report : Report} {found : List SourceFile}
  (hviolations : report.violations =
    found.flatMap fun f => (Scan.scanFile tree here w.index m f).violations)

include hviolations

/-- A group of a report holds the violations of one file. -/
theorem mem_byFile {g : (Text × Text) × List Violation} (hg : g ∈ report.byFile) :
    g.2 ≠ [] ∧
      ∀ v, v ∈ g.2 ↔ v ∈ (Scan.scanFile tree here w.index m ⟨g.1.1, g.1.2⟩).violations := by
  have hkey : ∀ {f : SourceFile} {v : Violation},
      v ∈ (Scan.scanFile tree here w.index m f).violations → v.key = g.1 → f = ⟨g.1.1, g.1.2⟩ := by
    intro f v hv hkey
    rw [key_of_mem_violations hv] at hkey
    rw [← hkey]
  have hmem : ∀ v, v ∈ g.2 ↔ v ∈ report.violations ∧ v.key = g.1 :=
    fun _ => Groups.mem_group_iff hg
  obtain ⟨v₀, hv₀, hkey₀⟩ := Groups.mem_keys_of.1 (List.mem_map_of_mem (f := Prod.fst) hg)
  refine ⟨List.ne_nil_of_mem ((hmem v₀).2 ⟨hv₀, hkey₀⟩), fun v => ?_⟩
  rw [hviolations] at hv₀
  obtain ⟨f₀, hf₀, hv₀⟩ := List.mem_flatMap.1 hv₀
  obtain rfl := hkey hv₀ hkey₀
  rw [hmem, hviolations, List.mem_flatMap]
  constructor
  · rintro ⟨⟨f, -, hv⟩, hvkey⟩
    rwa [hkey hv hvkey] at hv
  · intro hv
    exact ⟨⟨_, hf₀, hv⟩, key_of_mem_violations hv⟩

/-- A file is cleared once the groups of a report have been gone through, as it has no violations
unless it has a group. -/
theorem clears_of_byFile
    (hclears : ∀ g ∈ report.byFile, Clears w tree here m ⟨g.1.1, g.1.2⟩ chosen) (hf : f ∈ found) :
    Clears w tree here m f chosen := by
  by_cases hempty : (Scan.scanFile tree here w.index m f).violations = []
  · intro p c t hreach ht k hk
    rw [violations_scanFile ht] at hempty
    obtain ⟨v, hv, -⟩ := SourceFile.exists_mem_of_offends hk
    rw [hempty] at hv
    cases hv
  · obtain ⟨v, hv⟩ := List.exists_mem_of_ne_nil _ hempty
    have hmem : v ∈ report.violations := by
      rw [hviolations]
      exact List.mem_flatMap.2 ⟨f, hf, hv⟩
    obtain ⟨g, hg, hkey, -⟩ := Groups.exists_group_of_mem Violation.key hmem
    have hclears := hclears g hg
    rwa [hkey, key_of_mem_violations hv] at hclears

end Report

section Again

variable {target : Target} {o : ScanOptions} {clock : Clock} {now : Binary64} {report : Report}

theorem canOpen_of_sameOutline (h : SameOutline tree tree₁) (p : Path) :
    SourceText.canOpen tree here p = SourceText.canOpen tree₁ here p := by
  rw [SourceText.canOpen, SourceText.canOpen, FileTree.read, FileTree.read, h.unreadable]
  split_ifs
  · rfl
  · rcases h.reach_cases here p.text with ⟨c, hc, hc'⟩ | ⟨q, x, x', hx, hx', halike⟩
    · rw [hc, hc']
    · rw [hx, hx']
      cases halike <;> rfl

/-- Replacing after a scan that ends in time succeeds.  If a scan of the same target with the same
whitelist and the same size limit then ends in time too, it finds no violation, and unless it is cut
short it does end.  The links in the tree and the roots may be any. -/
theorem report_leaves_none (hrun : Scan.run tree here target w o clock now = .ok report) :
    ∃ found met tree' result, Scan.find tree here target = .ok (found, met) ∧
      Replace.report false here report tree = (tree', .ok result) ∧
      ∀ o' clock' now', o'.maxFileSize = o.maxFileSize →
        (Scan.schedule o' clock' found.length).timedOut = false →
        ∃ report', Scan.run tree' here target w o' clock' now' = .ok report' ∧
          report'.violations = [] := by
  obtain ⟨found, met, hfind, hviolations⟩ := find_of_run_eq_ok hrun
  obtain ⟨tree', result, chosen, hreplaced, hpartly, -, hclears⟩ :=
    inGroups_partly (Partly.refl o.maxFileSize tree) fun g hg => mem_byFile hviolations hg
  refine ⟨found, met, tree', result, hfind, hreplaced, fun o' clock' now' hsize htime => ?_⟩
  have hfind' : Scan.find tree' here target = .ok (found, met) :=
    (Walk.roots_of_sameOutline hpartly.outline here _ _ _).trans hfind
  have hlimit : Scan.limitFault? tree' here o' found (List.range found.length) = none := by
    rw [Scan.run, hfind] at hrun
    rw [← Scan.limitFault?_of_canOpen hsize.symm fun f _ =>
      canOpen_of_sameOutline hpartly.outline f.path]
    exact Scan.limitFault?_of_files_eq_ok hrun
  obtain ⟨report', hfiles⟩ := @Scan.exists_report_of_files tree' here target w o' clock' now' found
    met htime hlimit
  have hrun' : Scan.run tree' here target w o' clock' now' = .ok report' := by
    rw [Scan.run, hfind']
    exact hfiles
  refine ⟨report', hrun', ?_⟩
  rw [(Scan.files_eq_ok hfiles).1, List.flatMap_eq_nil_iff, hsize]
  exact fun f hf => hpartly.violations_eq_nil (clears_of_byFile hviolations hclears hf)

end Again

/-! ## A file with two names -/

/-- A folder `r` with a file `a`, which holds one link, and a second name `b` of it. -/
def twoNames : FileTree :=
  ⟨[(["r".toList], .folder), (["r".toList, "a".toList], .file (.bytes (Utf8.encode insecure))),
    (["r".toList, "b".toList], .link "a".toList)], [], []⟩

/-- All files beneath the folder `r`, which is named twice. -/
def twice : Target := ⟨["r".toList, "r".toList], [], [], defaultBuildDir⟩

/-- The links of the file `a` are allowed. -/
def allowsFirst : Whitelist := ⟨[⟨"a".toList, none, none⟩], [], []⟩

theorem exists_report_twoNames : ∃ report, Scan.run twoNames [] twice allowsFirst Scan.unhurried
    (.stepping .zero) .zero = .ok report ∧ report.violationCount = 2 := by
  have hcount : (Scan.run twoNames [] twice allowsFirst Scan.unhurried (.stepping .zero)
      .zero).toOption.map Report.violationCount = some 2 := by cbv
  rcases hrun : Scan.run twoNames [] twice allowsFirst Scan.unhurried (.stepping .zero) .zero
    with fault | report
  · rw [hrun] at hcount
    cases hcount
  · rw [hrun] at hcount
    exact ⟨report, rfl, Option.some.inj hcount⟩

theorem report_leaves_none_twoNames : ∃ report tree' result report',
    Scan.run twoNames [] twice allowsFirst Scan.unhurried (.stepping .zero) .zero = .ok report ∧
      report.violationCount = 2 ∧
      Replace.report false [] report twoNames = (tree', .ok result) ∧
      Scan.run tree' [] twice allowsFirst Scan.unhurried (.stepping .zero) .zero = .ok report' ∧
      report'.violations = [] := by
  obtain ⟨report, hrun, hcount⟩ := exists_report_twoNames
  obtain ⟨found, met, tree', result, -, hreplaced, hagain⟩ := report_leaves_none hrun
  obtain ⟨report', hrun', hnone⟩ := hagain Scan.unhurried (.stepping .zero) .zero rfl
    (Scan.not_timedOut_of_none rfl _ _)
  exact ⟨report, tree', result, report', hrun, hcount, hreplaced, hrun', hnone⟩

end InsecureLinks.Replace
