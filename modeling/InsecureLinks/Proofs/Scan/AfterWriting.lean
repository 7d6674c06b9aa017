import Mathlib
import InsecureLinks.Proofs.Files.Writing
import InsecureLinks.Proofs.Scan.Growth
import InsecureLinks.Proofs.Scan.Reading

/-!
# Scanning after writing

If a scan would come to none of the files that have been written since, it reports the same violations
as before (`violations_of_growsAt`).  It may as well come to written files in which it finds nothing,
then or now.
-/

namespace InsecureLinks

open FileTree

/-! ## Files that a walk comes to -/

namespace Walk

variable {t t' : FileTree} {here : Place} {roots included excluded : List Text} {f : SourceFile}
  {p : Place}

theorem ComesTo.of_grows (h : Grows t t') (hcomes : ComesTo t here roots included excluded f p) :
    ComesTo t' here roots included excluded f p := by
  obtain @⟨r, start, names, trail, p, content, hr, hreach, hleads, hfile, hselects⟩ := hcomes
  obtain ⟨x, hreach', hfolder⟩ := h.reach_eq_ok hreach
  cases hfolder
  obtain ⟨y, hfile', halike⟩ := h.kept p _ hfile
  cases halike with
  | file _ content' => exact .intro hr hreach' (hleads.of_grows h) hfile' hselects

variable {written : Set Place}

/-- A file that is not among those written is read as before. -/
theorem ComesTo.read_of_growsAt (hcomes : ComesTo t here roots included excluded f p)
    (ht : t.IsRooted) (h : GrowsAt written t t') (hp : p ∉ written) :
    t'.read here f.path = t.read here f.path := by
  obtain ⟨content, hfile, hreach⟩ := hcomes.reach_eq ht
  rw [FileTree.read, FileTree.read, h.grows.unreadable]
  rcases hreach with hreach | ⟨c, hc, hreach⟩
  · rw [hreach, h.grows.keeps.reach_eq_ok hreach (h.node?_eq hp hfile) (by simp)]
  · rw [hreach, h.grows.reach_eq_error hreach hc]

end Walk

namespace Scan

variable {t t' : FileTree} {here : Place} {target : Target} {w : Whitelist} {o : ScanOptions}
  {m : ℤ} {f : SourceFile} {p : Place} {written : Set Place}

theorem flatMap_eq_filter {α β : Type*} (g : α → List β) (as : List α) :
    as.flatMap g = (as.filter fun a => !(g a).isEmpty).flatMap g := by
  induction as with
  | nil => rfl
  | cons a as ih =>
    rcases ha : g a with _ | ⟨b, bs⟩
    · rw [List.filter_cons_of_neg (by simp [ha]), List.flatMap_cons, ha, ih, List.nil_append]
    · rw [List.filter_cons_of_pos (by simp [ha]), List.flatMap_cons, List.flatMap_cons, ih]

/-- Whether a scan of a target comes to a file at a place. -/
def ComesTo (t : FileTree) (here : Place) (target : Target) (f : SourceFile) (p : Place) : Prop :=
  Walk.ComesTo t here target.roots target.included target.effectiveExcludes f p

/-- Whether no violation is found in what a file holds, whatever the whitelist. -/
def IsClear (m : ℤ) (c : Content) : Prop :=
  ∀ t, SourceText.ofBytes m c.toBytes = .ok t → ∀ f : SourceFile, f.links t = []

theorem violations_of_isClear (ht : t.IsRooted) (hcomes : ComesTo t here target f p)
    (hclear : ∀ c, t.node? p = some (.file c) → IsClear m c) :
    (scanFile t here w.index m f).violations = [] := by
  by_contra hne
  obtain ⟨q, c, u, -, hreach, hu, hviolations⟩ := exists_file_of_violations hne
  obtain ⟨content, hfile, hreach' | ⟨e, -, hreach'⟩⟩ := hcomes.reach_eq ht
  · rw [hreach'] at hreach
    cases hreach
    rw [hviolations, SourceFile.violations, hclear c hfile u hu f] at hne
    exact hne rfl
  · rw [hreach'] at hreach
    cases hreach

section Written

variable (ht : t.IsRooted) (h : GrowsAt written t t') (hsteady : Walk.Steady t t')

include ht h hsteady

/-- Up to files that do not count, a walk finds the same files as before if no written file that it
comes to counts. -/
theorem filter_found_of_growsAt {counts : SourceFile → Bool}
    (hout : ∀ f p, ComesTo t' here target f p → p ∈ written → counts f = false)
    {found found' : List SourceFile} {met met' : List Diagnostic}
    (hfind : find t here target = .ok (found, met))
    (hfind' : find t' here target = .ok (found', met')) :
    found'.filter counts = found.filter counts := by
  refine Walk.roots_of_grows h.grows hsteady ht ?_ hfind hfind'
  intro r hr start pruned hreach names trail p content hleads hnew hnode hselects
  obtain ⟨x, hreach', hfolder⟩ := h.grows.reach_eq_ok hreach
  cases hfolder
  refine hout _ p (.intro hr hreach' hleads hnode hselects) ?_
  by_contra hp
  rw [h.same p content hp hnode] at hnew
  cases hnew

theorem found_of_growsAt (hout : ∀ f p, ComesTo t' here target f p → p ∉ written)
    {found found' : List SourceFile} {met met' : List Diagnostic}
    (hfind : find t here target = .ok (found, met))
    (hfind' : find t' here target = .ok (found', met')) : found' = found := by
  have hfilter : found'.filter (fun _ => true) = found.filter fun _ => true :=
    filter_found_of_growsAt ht h hsteady (fun f p hcomes hp => absurd hp (hout f p hcomes)) hfind
      hfind'
  rwa [List.filter_true, List.filter_true] at hfilter

/-- A scan reports the same violations as before if it finds none in the written files, neither in
what they hold now nor in what they held. -/
theorem violations_of_growsAt
    (hclear : ∀ f p, ComesTo t' here target f p → p ∈ written → ∀ c,
      (t.node? p = some (.file c) ∨ t'.node? p = some (.file c)) → IsClear o.maxFileSize c)
    {clock clock' : Clock} {now now' : Binary64} {report report' : Report}
    (hrun : run t here target w o clock now = .ok report)
    (hrun' : run t' here target w o clock' now' = .ok report') :
    report'.violations = report.violations := by
  obtain ⟨found, met, hfind, hviolations⟩ := find_of_run_eq_ok hrun
  obtain ⟨found', met', hfind', hviolations'⟩ := find_of_run_eq_ok hrun'
  let violations (t : FileTree) (f : SourceFile) : List Violation :=
    (scanFile t here w.index o.maxFileSize f).violations
  have hnone : ∀ f p, ComesTo t' here target f p → p ∈ written → violations t' f = [] :=
    fun f p hcomes hp => violations_of_isClear (h.grows.isRooted ht) hcomes
      fun c hc => hclear f p hcomes hp c (.inr hc)
  have hsame : ∀ f ∈ found, violations t f = violations t' f := by
    intro f hf
    obtain ⟨p, hcomes⟩ := Walk.exists_leads_of_mem_found hfind hf
    have hcomes' := hcomes.of_grows h.grows
    by_cases hp : p ∈ written
    · rw [hnone f p hcomes' hp]
      exact violations_of_isClear ht hcomes fun c hc => hclear f p hcomes' hp c (.inl hc)
    · dsimp only [violations]
      rw [scanFile, scanFile, SourceText.read, SourceText.read,
        hcomes.read_of_growsAt ht h hp]
  -- Only the files with violations matter, and of these both scans have found the same.
  let counts (f : SourceFile) : Bool := !(violations t' f).isEmpty
  have hfilter : found'.filter counts = found.filter counts :=
    filter_found_of_growsAt ht h hsteady
      (fun f p hcomes hp => by simp [counts, hnone f p hcomes hp]) hfind hfind'
  calc report'.violations = found'.flatMap (violations t') := hviolations'
    _ = found.flatMap (violations t') := by
      rw [flatMap_eq_filter _ found', flatMap_eq_filter _ found, hfilter]
    _ = found.flatMap (violations t) := by
      rw [List.flatMap_def, List.flatMap_def, List.map_congr_left fun f hf => (hsame f hf).symm]
    _ = report.violations := hviolations.symm

end Written

end Scan

end InsecureLinks
