import Mathlib
import InsecureLinks.Proofs.Files.Writing
import InsecureLinks.Proofs.Scan.AfterWriting
import InsecureLinks.Proofs.Store.CachedScan
import InsecureLinks.Store.History

/-!
# What the history file does to a tree

Using the history file changes no file but that one (`withFile_growsAt`).  It is never text, before or
after, so a scan that comes to it finds nothing there (`isClear_of_tablesOf`).

What is kept in it is kept while other files are written and scans are saved (`Holds.of_growsAt`,
`Holds.of_save`).  So a run with reuse that comes to none of the written files gives the report of the
run before, whatever that one took or kept (`run_again`).
-/

namespace InsecureLinks.Store

open FileTree

variable {tree tree' : FileTree} {here : Place} {p : Path} {α : Type}

/-! ## What a history file looks like to a scan -/

theorem ofBytes_tables (m : ℤ) (t : Tables) : ∃ s, SourceText.ofBytes m t.bytes = .error s := by
  rw [SourceText.ofBytes]
  split_ifs with hsize hzero
  · exact ⟨_, rfl⟩
  · exact ⟨_, rfl⟩
  · refine absurd (List.contains_iff_mem.2 ?_) hzero
    rw [Tables.bytes, List.take_append]
    exact List.mem_append_left _ (by decide)

/-- No link is found in a file that can be opened as a history file. -/
theorem isClear_of_tablesOf {m : ℤ} {c : Content} {t : Tables} (h : tablesOf c = .ok t) :
    Scan.IsClear m c := by
  intro u hu f
  cases c with
  | tables t' =>
    obtain ⟨s, hs⟩ := ofBytes_tables m t'
    rw [Content.toBytes, hs] at hu
    cases hu
  | bytes b =>
    rw [tablesOf] at h
    split_ifs at h with hlength
    rw [List.eq_nil_iff_forall_not_mem]
    intro v hv
    obtain ⟨before, after, rfl⟩ := SourceFile.infix_of_mem_links hv
    -- The link alone takes more bytes than there are.
    have hbytes := congrArg List.length (Scan.dropByteOrderMark_of_ofBytes hu)
    have hlink : (Utf8.encode insecure).length = 7 := by decide
    rw [Utf8.encode_append, Utf8.encode_append, List.length_append, List.length_append, hlink] at hbytes
    have hshort : (Utf8.dropByteOrderMark b).length ≤ b.length := by
      rw [Utf8.dropByteOrderMark]
      split_ifs
      · exact (List.drop_sublist _ _).length_le
      · exact le_rfl
    rw [emptyFileBytes] at hlength
    rw [Content.toBytes] at hbytes
    omega

/-! ## Opening and operations -/

section Operations

variable (ht : tree.IsRooted) (hhere : tree.node? here = some .folder)

include ht hhere

/-- Opening changes the history file, which could be opened as such before, and makes folders. -/
theorem openAt_growsAt {o : Opened} (h : openAt here p tree = (tree', .ok o)) :
    GrowsAt (tree'.ends here p) tree tree' ∧
      (∃ t, tree'.reach here p.text = .ok (o.place, .file (.tables t))) ∧
      ∀ c, tree.node? o.place = some (.file c) → ∃ t, tablesOf c = .ok t := by
  obtain ⟨tree₀, place, t, hfinds, rfl, rfl⟩ := exists_finds_of_openAt h
  have hgrows := ensureFolders_growsAt ht hhere hfinds.folders
  have hfile : ∀ x, tree₀.node? place = some x → ∃ c, x = .file c ∧ tablesOf c = .ok t := by
    intro x hx
    obtain hnone | ⟨c, hc, htables⟩ := tablesAt_eq_ok hfinds.tables
    · cases hx.symm.trans hnone
    · exact ⟨c, Option.some.inj (hx.symm.trans hc), htables⟩
  obtain ⟨hput, hreach⟩ := growsAt_of_lookup (hgrows.grows.isRooted ht)
    (hgrows.grows.keeps.folder here hhere) hfinds.lookup
    (fun x hx => (hfile x hx).imp fun _ => And.left) (.tables t.migrate)
  refine ⟨(hgrows.mono (Set.empty_subset _)).trans hput, ⟨t.migrate, hreach⟩, fun c hc => ?_⟩
  obtain ⟨c', hc', htables⟩ :=
    hfile _ (hgrows.node?_eq (by simp) hc)
  cases hc'
  exact ⟨t, htables⟩

end Operations

/-- An operation changes the history file that it is carried out on. -/
theorem perform_growsAt {o : Opened} {t : Tables}
    (hreach : tree.reach here p.text = .ok (o.place, .file (.tables t))) (operation : Operation α) :
    GrowsAt ((o.perform operation tree).1.ends here p) tree (o.perform operation tree).1 ∧
      (o.perform operation tree).1.reach here p.text =
        .ok (o.place, .file (.tables (operation ⟨t, o.pending⟩).1.committed)) := by
  have hnode := node?_of_reach hreach
  have hcommitted : o.committed tree = t := by rw [Opened.committed, hnode]
  have hperform : (o.perform operation tree).1 =
      tree.put o.place (.file (.tables (operation ⟨t, o.pending⟩).1.committed)) := by
    rw [Opened.perform, hcommitted]
  have hreach' := reach_put (reach_eq_ok.1 hreach) (by simp [hnode]) (by simp [hnode])
    (.tables (operation ⟨t, o.pending⟩).1.committed)
  rw [hperform]
  exact ⟨growsAt_put_file hnode _ ⟨_, hreach'⟩, hreach'⟩

section Operations

variable (ht : tree.IsRooted) (hhere : tree.node? here = some .folder)

include ht hhere

theorem withFile_growsAt {operation : Operation α} {a : α}
    (h : withFile here p operation tree = (tree', .ok a)) :
    GrowsAt (tree'.ends here p) tree tree' := by
  rw [withFile] at h
  rcases hopen : openAt here p tree with ⟨tree₁, f | o⟩
  · rw [hopen] at h
    cases h
  · rw [hopen] at h
    dsimp only at h
    obtain ⟨hopened, ⟨t, hreach⟩, -⟩ := openAt_growsAt ht hhere hopen
    obtain ⟨hperformed, -⟩ := perform_growsAt hreach operation
    rw [(Prod.mk.inj h).1] at hperformed
    exact (hopened.mono hperformed.grows.ends_subset).trans hperformed

/-- The history file can be opened as such before and after. -/
theorem tablesOf_of_withFile {operation : Operation α} {a : α}
    (h : withFile here p operation tree = (tree', .ok a)) {q : Place} (hq : q ∈ tree'.ends here p)
    {c : Content} (hc : tree.node? q = some (.file c) ∨ tree'.node? q = some (.file c)) :
    ∃ t, tablesOf c = .ok t := by
  rw [withFile] at h
  rcases hopen : openAt here p tree with ⟨tree₁, f | o⟩
  · rw [hopen] at h
    cases h
  · rw [hopen] at h
    dsimp only at h
    obtain ⟨-, ⟨t, hreach⟩, htables⟩ := openAt_growsAt ht hhere hopen
    obtain ⟨-, hreach'⟩ := perform_growsAt hreach operation
    rw [(Prod.mk.inj h).1] at hreach'
    obtain ⟨c', hq⟩ := hq
    rw [hreach'] at hq
    obtain ⟨rfl, -⟩ := Prod.mk.inj (Except.ok.inj hq)
    rcases hc with hc | hc
    · exact htables c hc
    · rw [node?_of_reach hreach'] at hc
      cases hc
      exact ⟨_, rfl⟩

namespace CachedScan

variable {key : Text} {found : Option Report}

theorem lookUp_growsAt (h : lookUp here p key tree = (tree', .ok found)) :
    GrowsAt (tree'.ends here p) tree tree' := by
  obtain ⟨document, hget, -⟩ := lookUp_eq_ok h
  exact withFile_growsAt ht hhere hget

/-- A run with reuse changes no file but the history file. -/
theorem run_growsAt {hash : Fingerprint.Hash} {q : Request} {clock : Clock} {now : Binary64}
    {r : Report} {hit : Bool} (h : run hash here q clock now tree = (tree', .ok (r, hit))) :
    GrowsAt (tree'.ends here q.file) tree tree' := by
  obtain ⟨found, key, -, -, ⟨-, hlook⟩ | ⟨-, tree₁, hlook, -, hput⟩⟩ := run_eq_ok h
  · exact lookUp_growsAt ht hhere hlook
  · have hlooked := lookUp_growsAt ht hhere hlook
    have hkept := withFile_growsAt (hlooked.grows.isRooted ht)
      (hlooked.grows.keeps.folder here hhere) hput
    exact (hlooked.mono hkept.grows.ends_subset).trans hkept

end CachedScan

end Operations

/-! ## Kept reports -/

section Holds

variable {key : Text} {d : Value}

/-- What is kept in the history file stays there while other files are written. -/
theorem Holds.of_growsAt {written : Set Place} (h : GrowsAt written tree tree')
    (hout : ∀ q ∈ tree'.ends here p, q ∉ written) (hholds : Holds here p key d tree) :
    Holds here p key d tree' := by
  obtain ⟨t, rows, hkept, hrows, hfind⟩ := hholds
  obtain ⟨place, hreach⟩ := kept_eq_some.1 hkept
  have hplace := hout place (h.grows.ends_subset ⟨_, hreach⟩)
  refine ⟨t, rows, kept_eq_some.2 ⟨place, ?_⟩, hrows, hfind⟩
  exact h.grows.keeps.reach_eq_ok hreach (h.node?_eq hplace (node?_of_reach hreach)) (by simp)

/-- Saving a scan leaves the kept reports as they are. -/
theorem History.cache_save {id : Text} {r : Report.Draft} {t : Tables} {c : Connection}
    (h : History.save id r ⟨t, none⟩ = (c, .ok ())) : c.committed.cache = t.cache := by
  rw [History.save] at h
  split at h
  · cases h
  · next rows row _ =>
    dsimp only at h
    split at h
    · cases h
    · next table htable =>
      rcases hadd : History.addViolations id table r.violations with ⟨table', f | ⟨⟩⟩
      · rw [hadd] at h
        cases h
      · rw [hadd] at h
        cases h
        rfl

theorem Holds.of_save {id : Text} {r : Report.Draft}
    (h : withFile here p (History.save id r) tree = (tree', .ok ()))
    (hholds : Holds here p key d tree) : Holds here p key d tree' := by
  obtain ⟨t, rows, hkept, hrows, hfind⟩ := hholds
  obtain ⟨c, hop, hkept'⟩ := withFile_of_kept hkept h
  exact ⟨c.committed, rows, hkept', (History.cache_save hop).trans (cache_migrate hrows), hfind⟩

end Holds

namespace CachedScan

variable {t t₁ t₂ t' : FileTree} {here : Place} {hash : Fingerprint.Hash} {q : Request}

/-! ## A run after another -/

/-- A key depends on what is read of the files. -/
theorem key_eq_of_read {target : Target} {w : Whitelist} {m : ℤ} {found : List SourceFile}
    (hread : ∀ f ∈ found, t'.read here f.path = t.read here f.path) :
    Fingerprint.key hash t' here target w m found = Fingerprint.key hash t here target w m found := by
  have hfiles : found.flatMap (Fingerprint.fileBytes t' here) =
      found.flatMap (Fingerprint.fileBytes t here) := by
    rw [List.flatMap_def, List.flatMap_def]
    refine congrArg List.flatten (List.map_congr_left fun f hf => ?_)
    rw [Fingerprint.fileBytes, Fingerprint.fileBytes, Fingerprint.contentBytes,
      Fingerprint.contentBytes, hread f hf]
  rw [Fingerprint.key, Fingerprint.key, Fingerprint.files, Fingerprint.files,
    Fingerprint.filesBytes, Fingerprint.filesBytes, hfiles]

/-- A run gives the report of the run before if it comes to no file that has been written since and
what was kept is kept still. -/
theorem run_again {written : Set Place} {clock clock' : Clock} {now now' : Binary64}
    {r r' : Report} {hit hit' : Bool} (ht : t.IsRooted)
    (hrun : run hash here q clock now t = (t₁, .ok (r, hit)))
    (hrun' : run hash here q clock' now' t' = (t₂, .ok (r', hit')))
    (h : GrowsAt written t t') (hsteady : Walk.Steady t t')
    (hout : ∀ f p, Scan.ComesTo t' here q.target f p → p ∉ written)
    (hholds : ∀ key d, Holds here q.file key d t₁ → Holds here q.file key d t') : r' = r := by
  obtain ⟨⟨found, met⟩, -, hfind, -⟩ := run_eq_ok hrun
  obtain ⟨⟨found', met'⟩, -, hfind', -⟩ := run_eq_ok hrun'
  obtain rfl := Scan.found_of_growsAt ht h hsteady hout hfind hfind'
  have hread : ∀ f ∈ found', t'.read here f.path = t.read here f.path := by
    intro f hf
    obtain ⟨p, hcomes⟩ := Walk.exists_leads_of_mem_found hfind hf
    exact hcomes.read_of_growsAt ht h (hout f p (hcomes.of_grows h.grows))
  obtain ⟨d, hd, hreport⟩ := holds_of_run hrun hfind
  have hd' := hholds _ d hd
  rw [← key_eq_of_read hread] at hd'
  exact Except.ok.inj ((report_eq_of_holds hd' hfind' hrun').symm.trans hreport)

end CachedScan

end InsecureLinks.Store
