import Mathlib
import InsecureLinks.Proofs.Files.Writing
import InsecureLinks.Proofs.Grouping
import InsecureLinks.Proofs.Replace.Refusal

/-!
# Replacing that is stopped

Replacing goes from one file of a report to the next, and the first that fails ends it.  If no two names
of the report lead to the same file (`AllApart`), a run that was stopped has left the files before as if
the report had ended with them, each of them rewritten as a whole, and has not touched anything else
(`report_stops`).

A file is only written once its own links are all secured (`Attempt`), so a name that fails leaves the
tree as it was.  What the names before have written is in other files, and writing a file does not change
where names lead.  So why a name fails can be told from the tree as it was before the run
(`Attempt.of_read_eq`).
-/

namespace InsecureLinks

namespace FileTree

variable {t t' : FileTree} {here place : Place} {p : Path}

theorem SameOutline.ends_eq (h : SameOutline t t') (here : Place) (p : Path) :
    t'.ends here p = t.ends here p :=
  Set.Subset.antisymm h.symm.grows.ends_subset h.grows.ends_subset

theorem ends_of_reach {c : Content} (h : t.reach here p.text = .ok (place, .file c)) :
    t.ends here p = {place} := by
  ext q
  rw [Set.mem_singleton_iff]
  constructor
  · rintro ⟨c', hreach⟩
    rw [h] at hreach
    exact (Prod.mk.inj (Except.ok.inj hreach)).1.symm
  · rintro rfl
    exact ⟨c, h⟩

/-- The file to which a path leads is the one that is read. -/
theorem exists_file_of_mem_ends {b : Utf8.Bytes} (hplace : place ∈ t.ends here p)
    (hread : t.read here p = .ok b) : ∃ c, t.node? place = some (.file c) ∧ c.toBytes = b := by
  obtain ⟨c, hreach⟩ := hplace
  refine ⟨c, node?_of_reach hreach, ?_⟩
  rw [FileTree.read] at hread
  split_ifs at hread
  rw [hreach] at hread
  exact Except.ok.inj hread

/-- What is read under a name is the same as long as its file is. -/
theorem SameOutline.read_eq (h : SameOutline t t')
    (hsame : ∀ q ∈ t.ends here p, t'.node? q = t.node? q) : t'.read here p = t.read here p := by
  rw [FileTree.read, FileTree.read, h.unreadable]
  rcases h.reach_cases here p.text with ⟨c, hreach, hreach'⟩ | ⟨q, x, x', hreach, hreach', halike⟩
  · rw [hreach, hreach']
  · rw [hreach, hreach']
    cases halike with
    | file c c' =>
      have hnode := hsame q ⟨c, hreach⟩
      rw [node?_of_reach hreach, node?_of_reach hreach'] at hnode
      obtain rfl := Node.file.inj (Option.some.inj hnode)
      rfl
    | folder => rfl
    | link target => rfl
    | pipe => rfl

end FileTree

/-- The part of a report that is about some files. -/
def Report.only (r : Report) (keys : List (Text × Text)) : Report :=
  { r with violations := r.violations.filter fun v => decide (v.key ∈ keys) }

theorem Report.byFile_only {r : Report} {before after : Groups (Text × Text) Violation}
    (h : r.byFile = before ++ after) : (r.only (before.map Prod.fst)).byFile = before :=
  Groups.of_filter_keys h fun _ => decide_eq_true_iff

namespace Replace

open FileTree

variable {refuse : Refusal} {dryRun : Bool} {here : Place} {tree tree' tree₁ tree₂ : FileTree}
  {p : Path} {q : Place} {vs : List Violation} {g : (Text × Text) × List Violation}
  {gs : Groups (Text × Text) Violation}

/-! ## What a run leaves -/

/-- Whether a file that held a text now holds what securing its links has made of all of it. -/
inductive Rewritten (vs : List Violation) (p : Place) (tree tree' : FileTree) : Prop
  | intro {c c' : Content} {content changed : Text} {n : ℕ} (before : tree.node? p = some (.file c))
      (held : c.toBytes = Utf8.encode content) (secured : inText content vs = .ok (changed, n))
      (after : tree'.node? p = some (.file c')) (holds : c'.toBytes = Utf8.encode changed) :
      Rewritten vs p tree tree'

theorem Rewritten.congr (h : Rewritten vs q tree tree') (hsame : tree₁.node? q = tree.node? q)
    (hsame' : tree₂.node? q = tree'.node? q) : Rewritten vs q tree₁ tree₂ := by
  obtain ⟨before, held, secured, after, holds⟩ := h
  exact ⟨hsame.trans before, held, secured, hsame'.trans after, holds⟩

/-- Whether a run has gone through some groups and left everything else alone: the files of the groups
are rewritten, unless it is a dry run, and nothing is different anywhere else. -/
structure Leaves (dryRun : Bool) (here : Place) (gs : Groups (Text × Text) Violation)
    (tree tree' : FileTree) : Prop where
  outline : SameOutline tree tree'
  dry : dryRun = true → tree' = tree
  rewritten : dryRun = false →
    ∀ g ∈ gs, ∀ p ∈ tree.ends here (groupPath g), Rewritten g.2 p tree tree'
  rest : ∀ p, (∀ g ∈ gs, p ∉ tree.ends here (groupPath g)) → tree'.node? p = tree.node? p

/-- Whether no two names lead to the same file. -/
def AllApart (tree : FileTree) (here : Place) (gs : Groups (Text × Text) Violation) : Prop :=
  gs.Pairwise fun g g' =>
    Disjoint (tree.ends here (groupPath g)) (tree.ends here (groupPath g'))

theorem AllApart.of_sameOutline (h : AllApart tree here gs) (houtline : SameOutline tree tree') :
    AllApart tree' here gs := by
  refine h.imp fun {g g'} hdisjoint => ?_
  rwa [houtline.ends_eq, houtline.ends_eq]

theorem leaves_nil (tree : FileTree) : Leaves dryRun here [] tree tree where
  outline := .refl tree
  dry _ := rfl
  rewritten _ _ hg := nomatch hg
  rest _ _ := rfl

/-- A file that does not fail is left rewritten. -/
theorem Attempt.leaves {n : ℕ}
    (h : Attempt refuse dryRun here (groupPath g) g.2 tree (.ok (tree', n))) :
    Leaves dryRun here [g] tree tree' := by
  cases h with
  | @kept content changed _ hread htext hkept =>
    refine ⟨.refl tree, fun _ => rfl, fun hdry => List.forall_mem_singleton.2 fun p hp => ?_,
      fun _ _ => rfl⟩
    obtain rfl : n = 0 := hkept.resolve_right (by simp [hdry])
    obtain rfl := inText_of_zero htext
    obtain ⟨c, hnode, hbytes⟩ := exists_file_of_mem_ends hp hread
    exact ⟨hnode, hbytes, htext, hnode, hbytes⟩
  | @written content changed _ place c hread htext hn hdry hrefuse hreach =>
    have hnode := node?_of_reach hreach
    refine ⟨sameOutline_put hnode _, fun hdry' => ?_,
      fun _ => List.forall_mem_singleton.2 fun p hp => ?_, fun p hp => ?_⟩
    · rw [hdry] at hdry'
      cases hdry'
    · obtain ⟨c', hc', hbytes⟩ := exists_file_of_mem_ends hp hread
      rw [ends_of_reach hreach] at hp
      obtain rfl := Set.mem_singleton_iff.1 hp
      have hafter : (tree.put p (.file (.bytes (Utf8.encode changed)))).node? p =
          some (.file (.bytes (Utf8.encode changed))) := by
        rw [node?_put tree (ne_nil_of_file hnode), if_pos rfl]
      exact ⟨hc', hbytes, htext, hafter, rfl⟩
    · have hother : p ≠ place := by
        rintro rfl
        exact hp g (List.mem_singleton_self g) ⟨c, hreach⟩
      rw [node?_put tree (ne_nil_of_file hnode), if_neg hother]

/-- One file is gone through and then others, none of which is the same. -/
theorem Leaves.cons (hfirst : Leaves dryRun here [g] tree tree₁)
    (hrest : Leaves dryRun here gs tree₁ tree₂)
    (hapart : ∀ g' ∈ gs,
      Disjoint (tree.ends here (groupPath g)) (tree.ends here (groupPath g'))) :
    Leaves dryRun here (g :: gs) tree tree₂ := by
  have hends : ∀ g', tree₁.ends here (groupPath g') = tree.ends here (groupPath g') :=
    fun g' => hfirst.outline.ends_eq here (groupPath g')
  -- The first file is none of the others, and none of the others is the first.
  have hkept : ∀ p ∈ tree.ends here (groupPath g), tree₂.node? p = tree₁.node? p := by
    intro p hp
    refine hrest.rest p fun g' hg' hp' => ?_
    rw [hends] at hp'
    exact Set.disjoint_left.1 (hapart g' hg') hp hp'
  have hstill : ∀ g' ∈ gs, ∀ p ∈ tree.ends here (groupPath g'),
      tree₁.node? p = tree.node? p := by
    intro g' hg' p hp'
    refine hfirst.rest p (List.forall_mem_singleton.2 fun hp => ?_)
    exact Set.disjoint_left.1 (hapart g' hg') hp hp'
  refine ⟨hfirst.outline.trans hrest.outline, fun hdry => ?_,
    fun hdry => List.forall_mem_cons.2 ⟨fun p hp => ?_, fun g' hg' p hp => ?_⟩, fun p hp => ?_⟩
  · rw [hrest.dry hdry, hfirst.dry hdry]
  · have hrewritten := hfirst.rewritten hdry g (List.mem_singleton_self g) p hp
    exact hrewritten.congr rfl (hkept p hp)
  · have hrewritten := hrest.rewritten hdry g' hg' p (by rwa [hends])
    exact hrewritten.congr (hstill g' hg' p hp).symm rfl
  · obtain ⟨hp, hothers⟩ := List.forall_mem_cons.1 hp
    rw [hrest.rest p fun g' hg' => by rw [hends]; exact hothers g' hg',
      hfirst.rest p (List.forall_mem_singleton.2 hp)]

/-- No file is left rewritten in part. -/
theorem Leaves.same_or_rewritten (h : Leaves dryRun here gs tree tree') (p : Place) :
    tree'.node? p = tree.node? p ∨ ∃ g ∈ gs, Rewritten g.2 p tree tree' := by
  by_cases hdry : dryRun = true
  · exact .inl (by rw [h.dry hdry])
  · rw [Bool.not_eq_true] at hdry
    by_cases hp : ∃ g ∈ gs, p ∈ tree.ends here (groupPath g)
    · obtain ⟨g, hg, hp⟩ := hp
      exact .inr ⟨g, hg, h.rewritten hdry g hg p hp⟩
    · exact .inl (h.rest p fun g hg hends => hp ⟨g, hg, hends⟩)

/-- A run that comes to the end leaves the files of its groups rewritten. -/
theorem leaves_of_inGroupsUnder {done : Replaced} (hapart : AllApart tree here gs)
    (h : inGroupsUnder refuse dryRun here tree gs = (tree', .ok done)) :
    Leaves dryRun here gs tree tree' := by
  induction gs generalizing tree done with
  | nil =>
    cases h
    exact leaves_nil _
  | cons g gs ih =>
    obtain ⟨hfirst, hothers⟩ := List.pairwise_cons.1 hapart
    rcases hfile : inFileUnder refuse dryRun here (groupPath g) g.2 tree with f | ⟨tree₁, n⟩
    · rw [inGroupsUnder_of_fault hfile] at h
      cases h
    · rw [inGroupsUnder_cons hfile] at h
      obtain ⟨htree, hdone⟩ := Prod.mk.inj h
      obtain ⟨r, hr, -⟩ := map_eq_ok.1 hdone
      have hleaves := (attempt_iff.2 hfile).leaves
      -- Names that are apart stay apart, as writing the first file leaves the outline as it was.
      exact hleaves.cons (ih (AllApart.of_sameOutline hothers hleaves.outline)
        (Prod.ext htree hr)) hfirst

/-! ## Where a run is stopped -/

/-- A run that fails does so at one group, having gone through those before it. -/
theorem exists_stop {f : ReplaceFault}
    (h : inGroupsUnder refuse dryRun here tree gs = (tree', .error f)) :
    ∃ before g after done, gs = before ++ g :: after ∧
      inGroupsUnder refuse dryRun here tree before = (tree', .ok done) ∧
      Attempt refuse dryRun here (groupPath g) g.2 tree' (.error f) := by
  induction gs generalizing tree with
  | nil => cases h
  | cons g gs ih =>
    rcases hfile : inFileUnder refuse dryRun here (groupPath g) g.2 tree with f' | ⟨tree₁, n⟩
    · rw [inGroupsUnder_of_fault hfile] at h
      cases h
      exact ⟨[], g, gs, _, rfl, rfl, attempt_iff.2 hfile⟩
    · rw [inGroupsUnder_cons hfile] at h
      obtain ⟨htree, hf⟩ := Prod.mk.inj h
      obtain ⟨before, g', after, done, rfl, hbefore, hattempt⟩ :=
        ih (Prod.ext htree (map_eq_error.1 hf))
      refine ⟨g :: before, g', after, done.add (groupPath g).text n, rfl, ?_, hattempt⟩
      rw [inGroupsUnder_cons hfile, hbefore]
      rfl

/-- What stops a file does so wherever the file is as it was. -/
theorem Attempt.of_read_eq {f : ReplaceFault}
    (h : Attempt refuse dryRun here p vs tree' (.error f))
    (hread : tree'.read here p = tree.read here p) :
    Attempt refuse dryRun here p vs tree (.error f) := by
  cases h with
  | unread hunread => exact .unread (hread ▸ hunread)
  | notText hbytes hdecode => exact .notText (hread ▸ hbytes) hdecode
  | noSuchLine hcontent hline => exact .noSuchLine (hread ▸ hcontent) hline
  | refused hcontent htext hn hdry hrefuse =>
    exact .refused (hread ▸ hcontent) htext hn hdry hrefuse

/-- A run over a report in which no two names lead to the same file, and which is stopped, is stopped
at one group by something that was so from the start.  The files of the groups before it are as the
report restricted to these leaves them; its own file, those of the groups after it and whatever is not
in the report are as they were.  What has changed has been rewritten as a whole. -/
theorem report_stops {r : Report} {f : ReplaceFault} (hapart : AllApart tree here r.byFile)
    (hfault : reportUnder refuse dryRun here r tree = (tree', .error f)) :
    ∃ before g after done, r.byFile = before ++ g :: after ∧
      Attempt refuse dryRun here (groupPath g) g.2 tree (.error f) ∧
      reportUnder refuse dryRun here (r.only (before.map Prod.fst)) tree = (tree', .ok done) ∧
      Leaves dryRun here before tree tree' ∧
      (∀ g' ∈ g :: after, ∀ p ∈ tree.ends here (groupPath g'), tree'.node? p = tree.node? p) ∧
      (∀ p, (∀ g' ∈ r.byFile, p ∉ tree.ends here (groupPath g')) →
        tree'.node? p = tree.node? p) ∧
      ∀ p, tree'.node? p = tree.node? p ∨ ∃ g' ∈ before, Rewritten g'.2 p tree tree' := by
  obtain ⟨before, g, after, done, hgs, hbefore, hattempt⟩ := exists_stop hfault
  rw [hgs] at hapart ⊢
  obtain ⟨hbeforeApart, -, hacross⟩ := List.pairwise_append.1 hapart
  have hleaves := leaves_of_inGroupsUnder hbeforeApart hbefore
  have hkept : ∀ g' ∈ g :: after, ∀ p ∈ tree.ends here (groupPath g'),
      tree'.node? p = tree.node? p := by
    intro g' hg' p hp
    refine hleaves.rest p fun g'' hg'' hp' => ?_
    exact Set.disjoint_left.1 (hacross g'' hg'' g' hg') hp' hp
  have hread : tree'.read here (groupPath g) = tree.read here (groupPath g) :=
    hleaves.outline.read_eq (hkept g List.mem_cons_self)
  refine ⟨before, g, after, done, rfl, hattempt.of_read_eq hread, ?_, hleaves, hkept,
    fun p hp => hleaves.rest p fun g' hg' => hp g' (List.mem_append_left _ hg'),
    hleaves.same_or_rewritten⟩
  rw [reportUnder, Report.byFile_only hgs]
  exact hbefore

/-- A folder with three files, a link in each. -/
def threeFiles : FileTree :=
  ⟨(["r".toList], .folder) :: ["a", "b", "c"].map fun name =>
    (["r".toList, name.toList], .file (.bytes (Utf8.encode insecure))), [], []⟩

/-- The links in the three files. -/
def threeLinks : Report :=
  { violations := ["a", "b", "c"].map fun name => ⟨name.toList, 1, 0, [], "r".toList⟩
    filesScanned := 3, filesSkipped := 0, diagnostics := [], roots := ["r".toList]
    duration := .whole 0, timestamp := .whole 0 }

/-- The second of the three files is read-only. -/
def secondReadOnly : Refusal := fun p =>
  if p.text = "r/b".toList then some ⟨.denied, p.text⟩ else none

theorem allApart_threeFiles : AllApart threeFiles [] threeLinks.byFile := by
  have hpaths : threeLinks.byFile.map groupPath =
      [.ofText "r/a".toList, .ofText "r/b".toList, .ofText "r/c".toList] := by cbv
  have ha : threeFiles.ends [] (.ofText "r/a".toList) = {["r".toList, "a".toList]} :=
    ends_of_reach (c := .bytes (Utf8.encode insecure)) (by cbv)
  have hb : threeFiles.ends [] (.ofText "r/b".toList) = {["r".toList, "b".toList]} :=
    ends_of_reach (c := .bytes (Utf8.encode insecure)) (by cbv)
  have hc : threeFiles.ends [] (.ofText "r/c".toList) = {["r".toList, "c".toList]} :=
    ends_of_reach (c := .bytes (Utf8.encode insecure)) (by cbv)
  rw [AllApart, ← List.pairwise_map (f := groupPath)
    (R := fun p p' => Disjoint (threeFiles.ends [] p) (threeFiles.ends [] p')), hpaths]
  simp only [List.pairwise_cons, List.forall_mem_cons, ha, hb, hc, Set.disjoint_singleton,
    List.not_mem_nil, false_implies, implies_true, List.Pairwise.nil, and_true]
  decide

theorem report_stops_secondReadOnly : ∃ tree' before g after done,
    AllApart threeFiles [] threeLinks.byFile ∧
    reportUnder secondReadOnly false [] threeLinks threeFiles =
      (tree', .error (.access ⟨.denied, "r/b".toList⟩)) ∧
    threeLinks.byFile = before ++ g :: after ∧
    Attempt secondReadOnly false [] (groupPath g) g.2 threeFiles
      (.error (.access ⟨.denied, "r/b".toList⟩)) ∧
    reportUnder secondReadOnly false [] (threeLinks.only (before.map Prod.fst)) threeFiles =
      (tree', .ok done) ∧
    tree'.read [] (.ofText "r/a".toList) = .ok (Utf8.encode secure) ∧
    tree'.read [] (.ofText "r/b".toList) = .ok (Utf8.encode insecure) ∧
    tree'.read [] (.ofText "r/c".toList) = .ok (Utf8.encode insecure) := by
  have hfault : reportUnder secondReadOnly false [] threeLinks threeFiles =
      (threeFiles.put ["r".toList, "a".toList] (.file (.bytes (Utf8.encode secure))),
        .error (.access ⟨.denied, "r/b".toList⟩)) := by cbv
  obtain ⟨before, g, after, done, hgs, hattempt, hbefore, -⟩ :=
    report_stops allApart_threeFiles hfault
  refine ⟨_, before, g, after, done, allApart_threeFiles, hfault, hgs, hattempt, hbefore,
    ?_, ?_, ?_⟩
  · cbv
  · cbv
  · cbv

end Replace

end InsecureLinks
