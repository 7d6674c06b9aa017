import Mathlib
import InsecureLinks.Proofs.Replace.Rescan
import InsecureLinks.Proofs.Scan.Collecting

/-!
# Dry runs

A dry run reads each file as it is, while a real run reads it as the names before have left it.  Both
go through the same groups of a report, and where no two names of one file have violations in the same
line they come to the same (`dryRun_foretells_iff`).  Where two do, the second name finds the line
secured already: the dry run counts its links once for each name, the real run once.

At any time the real run has secured the lines with violations of the names before, so what it still
finds under a name are the lines that none of these has had (`inGroups_foretold`).
-/

namespace InsecureLinks

/-! ## What a run tells of -/

/-- Whether a run tells of no more than another. -/
structure Replaced.Within (r s : Replaced) : Prop where
  files : r.filesChanged.Sublist s.filesChanged
  count : r.replacements ≤ s.replacements

namespace Replaced

variable {r s : Replaced} {k n : ℕ}

theorem Within.add (h : r.Within s) (path : Text) (hk : k ≤ n) :
    (r.add path k).Within (s.add path n) := by
  unfold Replaced.add
  split_ifs with hk' hn
  · exact h
  · exact ⟨h.files.cons _, h.count.trans (Nat.le_add_left _ _)⟩
  · exact absurd (Nat.eq_zero_of_le_zero (by omega)) hk'
  · exact ⟨h.files.cons_cons _, Nat.add_le_add hk h.count⟩

/-- Runs of which the one tells of no more come to the same only if they do so for each file. -/
theorem Within.add_eq_iff (h : r.Within s) (path : Text) (hk : k ≤ n) (hn : n ≠ 0) :
    r.add path k = s.add path n ↔ k = n ∧ r = s := by
  constructor
  · intro hadd
    have hcount := congrArg replacements hadd
    have hle := h.count
    have hkn : k = n := by
      unfold Replaced.add at hcount
      split_ifs at hcount
      · dsimp only at hcount
        omega
      · dsimp only at hcount
        omega
    subst hkn
    unfold Replaced.add at hadd
    rw [if_neg hn, if_neg hn] at hadd
    obtain ⟨hfiles, hreplacements⟩ := Replaced.mk.inj hadd
    refine ⟨rfl, ?_⟩
    cases r
    cases s
    exact congrArg₂ Replaced.mk (List.cons.inj hfiles).2 (Nat.add_left_cancel hreplacements)
  · rintro ⟨rfl, rfl⟩
    rfl

end Replaced

namespace Replace

open FileTree
open Scan (exists_file_of_violations)

variable {tree tree₁ : FileTree} {here : Place} {w : Whitelist} {m : ℤ} {chosen : Place → ℕ → Bool}

/-! ## Lines that groups have in common -/

/-- Whether a group has a violation in a line of the file at a place, the lines counted from 0. -/
def Marks (tree : FileTree) (here : Place) (g : (Text × Text) × List Violation) (p : Place)
    (k : ℕ) : Prop :=
  (∃ x, tree.reach here (SourceFile.path ⟨g.1.1, g.1.2⟩).text = .ok (p, x)) ∧
    ∃ v ∈ g.2, v.lineNumber = ((k + 1 : ℕ) : ℤ)

/-- Whether two groups have no line of a file in common. -/
def NoneShared (tree : FileTree) (here : Place) (g g' : (Text × Text) × List Violation) : Prop :=
  ∀ p k, Marks tree here g p k → ¬Marks tree here g' p k

theorem marks_iff {g : (Text × Text) × List Violation} {f : SourceFile} {p : Place} {c : Content}
    {t : Text} (hf : f = ⟨g.1.1, g.1.2⟩)
    (hreach : tree.reach here f.path.text = .ok (p, .file c))
    (hvs : ∀ v, v ∈ g.2 ↔ v ∈ f.violations w t) {q : Place} {k : ℕ} :
    Marks tree here g q k ↔ q = p ∧ f.offends w t k = true := by
  subst hf
  have hplace : (∃ x, tree.reach here (SourceFile.path ⟨g.1.1, g.1.2⟩).text = .ok (q, x)) ↔
      q = p := by
    rw [hreach]
    constructor
    · rintro ⟨x, hx⟩
      exact (Prod.mk.inj (Except.ok.inj hx)).1.symm
    · rintro rfl
      exact ⟨_, rfl⟩
  rw [Marks, hplace]
  refine and_congr_right fun _ => ⟨?_, fun hk => ?_⟩
  · rintro ⟨v, hv, hline⟩
    obtain ⟨l, j, hl, hv⟩ := SourceFile.exists_line_of_mem_violations ((hvs v).1 hv)
    rw [SourceFile.lineNumber_of_mem_lineViolations hv] at hline
    obtain rfl : j = k := by simpa using hline
    rw [SourceFile.offends_of_line hl]
    simpa using List.ne_nil_of_mem hv
  · obtain ⟨v, hv, hline⟩ := SourceFile.exists_mem_of_offends hk
    exact ⟨v, (hvs v).2 hv, hline⟩

/-! ## One file after another -/

/-- A real run over groups, some lines being secured already, comes to no more than a dry run of the
tree as it was.  Both come to the same exactly if no group has a violation in one of these lines and
no two groups share one. -/
theorem inGroups_foretold {gs : Groups (Text × Text) Violation} (h : Partly m tree tree₁ chosen)
    (hgs : ∀ g ∈ gs, g.2 ≠ [] ∧
      ∀ v, v ∈ g.2 ↔ v ∈ (Scan.scanFile tree here w.index m ⟨g.1.1, g.1.2⟩).violations) :
    ∃ foretold tree₂ done, inGroups true here tree gs = (tree, .ok foretold) ∧
      inGroups false here tree₁ gs = (tree₂, .ok done) ∧ done.Within foretold ∧
      (done = foretold ↔ (∀ g ∈ gs, ∀ p k, Marks tree here g p k → chosen p k = false) ∧
        gs.Pairwise (NoneShared tree here)) := by
  induction gs generalizing tree₁ chosen with
  | nil => exact ⟨_, _, _, rfl, rfl, ⟨List.Sublist.refl _, le_rfl⟩, by simp⟩
  | cons g gs ih =>
    obtain ⟨⟨hne, hvs⟩, hgs⟩ := List.forall_mem_cons.1 hgs
    let f : SourceFile := ⟨g.1.1, g.1.2⟩
    obtain ⟨v, hv⟩ := List.exists_mem_of_ne_nil g.2 hne
    have hviolating := List.ne_nil_of_mem ((hvs v).1 hv)
    obtain ⟨p, c, t, hreadable, hreach, ht, hviolations⟩ := exists_file_of_violations hviolating
    rw [hviolations] at hvs hviolating
    -- The dry run meets the file as it was, the real run with the lines of the groups before.
    have hdry := inFile_eq hreadable hreach ht hvs (Partly.refl m tree) true
    rw [if_pos (.inr rfl)] at hdry
    simp only [Bool.not_false, Bool.and_true] at hdry
    obtain ⟨tree₂, hreal, hpartly⟩ := inFile_secures hreadable hreach ht hvs h
    obtain ⟨foretold, tree₃, done, hforetold, hdone, hwithin, heq⟩ := ih hpartly hgs
    have hle : linksWhere (fun k => f.offends w t k && !chosen p k) t ≤
        linksWhere (f.offends w t) t := by
      rw [linksWhere_split (f.offends w t) (chosen p)]
      exact Nat.le_add_right _ _
    refine ⟨_, tree₃, _, inGroups_cons hdry hforetold, inGroups_cons hreal hdone,
      hwithin.add _ hle, ?_⟩
    have hmarks : ∀ q k, Marks tree here g q k ↔ q = p ∧ f.offends w t k = true :=
      fun q k => marks_iff rfl hreach hvs
    rw [hwithin.add_eq_iff _ hle (linksWhere_offends_pos hviolating).ne', heq,
      linksWhere_offends_eq_iff, List.forall_mem_cons, List.pairwise_cons]
    constructor
    · rintro ⟨hfirst, hrest, hshared⟩
      refine ⟨⟨?_, ?_⟩, ?_, hshared⟩
      · intro q k hqk
        obtain ⟨rfl, hk⟩ := (hmarks q k).1 hqk
        exact hfirst k hk
      · intro g' hg' q k hqk
        exact (Bool.or_eq_false_iff.1 (hrest g' hg' q k hqk)).1
      · intro g' hg' q k hqk hqk'
        obtain ⟨rfl, hk⟩ := (hmarks q k).1 hqk
        have hnot := (Bool.or_eq_false_iff.1 (hrest g' hg' q k hqk')).2
        rw [decide_eq_true rfl, Bool.true_and, hk] at hnot
        cases hnot
    · rintro ⟨⟨hfirst, hrest⟩, hnone, hshared⟩
      refine ⟨fun k hk => hfirst p k ((hmarks p k).2 ⟨rfl, hk⟩), fun g' hg' q k hqk => ?_, hshared⟩
      rw [alsoIn, hrest g' hg' q k hqk, Bool.false_or, Bool.and_eq_false_iff, decide_eq_false_iff_not]
      by_contra hboth
      simp only [not_or, not_not, Bool.not_eq_false] at hboth
      exact hnone g' hg' q k ((hmarks q k).2 hboth) hqk

/-! ## A report -/

section Report

variable {report : Report} {found : List SourceFile}

/-- A violation that a scan has found is in a line of a file to which its path leads. -/
theorem exists_line_of_mem (hviolations : report.violations =
      found.flatMap fun f => (Scan.scanFile tree here w.index m f).violations)
    {v : Violation} (hv : v ∈ report.violations) :
    ∃ p x, ∃ k : ℕ, v.lineNumber = ((k + 1 : ℕ) : ℤ) ∧
      tree.reach here (SourceFile.path ⟨v.root, v.filePath⟩).text = .ok (p, x) := by
  rw [hviolations] at hv
  obtain ⟨f, -, hv⟩ := List.mem_flatMap.1 hv
  obtain ⟨hroot, hpath⟩ := Prod.mk.inj (key_of_mem_violations hv)
  obtain ⟨p, c, t, -, hreach, -, hfile⟩ := exists_file_of_violations (List.ne_nil_of_mem hv)
  rw [hfile] at hv
  obtain ⟨l, k, -, hv⟩ := SourceFile.exists_line_of_mem_violations hv
  refine ⟨p, .file c, k, SourceFile.lineNumber_of_mem_lineViolations hv, ?_⟩
  rw [hroot, hpath]
  exact hreach

/-- No two groups of a report have a line in common exactly if no two violations with different files
stand in the same line of what is really one file. -/
theorem noneShared_iff (hviolations : report.violations =
    found.flatMap fun f => (Scan.scanFile tree here w.index m f).violations) :
    report.byFile.Pairwise (NoneShared tree here) ↔
      ∀ v ∈ report.violations, ∀ v' ∈ report.violations, v.key ≠ v'.key →
        v.lineNumber = v'.lineNumber →
        tree.reach here (SourceFile.path ⟨v.root, v.filePath⟩).text ≠
          tree.reach here (SourceFile.path ⟨v'.root, v'.filePath⟩).text := by
  have hnodup : report.byFile.Pairwise fun g g' => g.1 ≠ g'.1 :=
    List.pairwise_map.1 (Groups.nodup_keys_of Violation.key report.violations)
  constructor
  · intro h v hv v' hv' hne hsame hreach
    obtain ⟨g, hg, hkey, hmem⟩ := Groups.exists_group_of_mem Violation.key hv
    obtain ⟨g', hg', hkey', hmem'⟩ := Groups.exists_group_of_mem Violation.key hv'
    obtain ⟨p, x, k, hk, hplace⟩ := exists_line_of_mem hviolations hv
    have hmarks : Marks tree here g p k := by
      refine ⟨⟨x, ?_⟩, v, hmem, hk⟩
      rw [hkey]
      exact hplace
    have hmarks' : Marks tree here g' p k := by
      refine ⟨⟨x, ?_⟩, v', hmem', hsame.symm.trans hk⟩
      rw [hkey']
      exact hreach.symm.trans hplace
    have hsymm : Std.Symm (NoneShared tree here) := ⟨fun g g' hgg q j hj hj' => hgg q j hj' hj⟩
    exact h.forall hg hg' (fun heq => hne (by rw [← hkey, ← hkey', heq])) p k hmarks hmarks'
  · intro h
    refine hnodup.imp_of_mem fun {g g'} hg hg' hne p k hmarks hmarks' => ?_
    obtain ⟨⟨x, hx⟩, v, hv, hk⟩ := hmarks
    obtain ⟨⟨x', hx'⟩, v', hv', hk'⟩ := hmarks'
    obtain ⟨hv, hkey⟩ := (Groups.mem_group_iff hg).1 hv
    obtain ⟨hv', hkey'⟩ := (Groups.mem_group_iff hg').1 hv'
    obtain rfl : x = x' := Option.some.inj ((node?_of_reach hx).symm.trans (node?_of_reach hx'))
    rw [← hkey] at hx
    rw [← hkey'] at hx'
    exact h v hv v' hv' (by rwa [hkey, hkey']) (hk.trans hk'.symm) (hx.trans hx'.symm)

variable {target : Target} {o : ScanOptions} {clock : Clock} {now : Binary64}

/-- Replacing after a scan succeeds, whether the scan came to its end or was cut short.  A dry run
changes nothing and tells of no less than the real run does.  It tells of the same exactly if no two
violations with different files stand in the same line of what is really one file. -/
theorem dryRun_foretells_iff (hscan : Scan.run tree here target w o clock now = .ok report ∨
    ∃ limit, Scan.run tree here target w o clock now = .error (.timedOut ⟨limit, report⟩)) :
    ∃ foretold tree' done, Replace.report true here report tree = (tree, .ok foretold) ∧
      Replace.report false here report tree = (tree', .ok done) ∧
      done.filesChanged.Sublist foretold.filesChanged ∧
      done.replacements ≤ foretold.replacements ∧
      (done = foretold ↔ ∀ v ∈ report.violations, ∀ v' ∈ report.violations, v.key ≠ v'.key →
        v.lineNumber = v'.lineNumber →
        tree.reach here (SourceFile.path ⟨v.root, v.filePath⟩).text ≠
          tree.reach here (SourceFile.path ⟨v'.root, v'.filePath⟩).text) := by
  obtain ⟨files, hviolations⟩ := Scan.exists_files_of_scan hscan
  obtain ⟨foretold, tree', done, hforetold, hdone, hwithin, heq⟩ :=
    inGroups_foretold (Partly.refl o.maxFileSize tree) fun g hg => mem_byFile hviolations hg
  refine ⟨foretold, tree', done, hforetold, hdone, hwithin.files, hwithin.count, ?_⟩
  rw [heq, noneShared_iff hviolations]
  exact and_iff_right fun _ _ _ _ _ => rfl

end Report

theorem dryRun_foretells_iff_oneAllowed : ∃ report foretold tree' done,
    Scan.run twoNames [] Scan.everything allowsFirst Scan.unhurried (.stepping .zero) .zero =
        .ok report ∧
      Replace.report true [] report twoNames = (twoNames, .ok foretold) ∧
      Replace.report false [] report twoNames = (tree', .ok done) ∧ done = foretold := by
  have hviolations : (Scan.run twoNames [] Scan.everything allowsFirst Scan.unhurried
      (.stepping .zero) .zero).toOption.map Report.violations =
        some [⟨"b".toList, 1, 0, insecure, "r".toList⟩] := by cbv
  rcases hrun : Scan.run twoNames [] Scan.everything allowsFirst Scan.unhurried (.stepping .zero)
    .zero with fault | report
  · rw [hrun] at hviolations
    cases hviolations
  · rw [hrun] at hviolations
    have hone : report.violations = _ := Option.some.inj hviolations
    obtain ⟨foretold, tree', done, hforetold, hdone, -, -, heq⟩ := dryRun_foretells_iff (.inl hrun)
    refine ⟨report, foretold, tree', done, rfl, hforetold, hdone, heq.2 ?_⟩
    rw [hone]
    intro v hv v' hv' hne
    exact absurd (by rw [List.mem_singleton.1 hv, List.mem_singleton.1 hv']) hne

/-- A link that stands under two names of one file is foretold twice and made secure once. -/
theorem dryRun_of_twoNames : ∃ report,
    Scan.run twoNames [] Scan.everything .empty Scan.unhurried (.stepping .zero) .zero =
        .ok report ∧
      Replace.report true [] report twoNames =
        (twoNames, .ok ⟨["r/a".toList, "r/b".toList], 2⟩) ∧
      Replace.report false [] report twoNames =
        (twoNames.put ["r".toList, "a".toList] (.file (.bytes (Utf8.encode secure))),
          .ok ⟨["r/a".toList], 1⟩) := by
  have hviolations : (Scan.run twoNames [] Scan.everything .empty Scan.unhurried
      (.stepping .zero) .zero).toOption.map Report.violations =
        some [⟨"a".toList, 1, 0, insecure, "r".toList⟩, ⟨"b".toList, 1, 0, insecure, "r".toList⟩] := by
    cbv
  rcases hrun : Scan.run twoNames [] Scan.everything .empty Scan.unhurried (.stepping .zero)
    .zero with fault | report
  · rw [hrun] at hviolations
    cases hviolations
  · rw [hrun] at hviolations
    have htwo : report.violations = _ := Option.some.inj hviolations
    refine ⟨report, rfl, ?_, ?_⟩
    · rw [Replace.report, Report.byFile, htwo]
      cbv
    · rw [Replace.report, Report.byFile, htwo]
      cbv

end Replace

end InsecureLinks
