import Mathlib
import InsecureLinks.Proofs.Report.Draft
import InsecureLinks.Proofs.Scan.Agreement
import InsecureLinks.Proofs.Store.Connection
import InsecureLinks.Proofs.Store.Key
import InsecureLinks.Store.CachedScan

/-!
# When a kept report is right

A report that is taken from the history file says what a new scan would say if what went into the
keys can be told from the hashed bytes (`hit_of_legible`).  It need not where it cannot: a file
that holds what two files are hashed as stands for both of them (`hit_of_framed`).
-/

namespace InsecureLinks.Store.CachedScan

open Utf8 (Bytes)

/-! ## Keys -/

/-- A tree and a request, with what is found there. -/
structure Workspace (here : Place) where
  tree : FileTree
  request : Request
  found : List SourceFile
  met : List Diagnostic
  finds : Scan.find tree here request.target = .ok (found, met)

namespace Workspace

variable {here : Place}

/-- The bytes that are hashed for the target. -/
def targetBytes (s : Workspace here) : Bytes :=
  Utf8.encode (Text.join [Fingerprint.separator]
    (Fingerprint.targetFields s.request.target s.request.options.maxFileSize))

/-- The bytes that are hashed for the files, after the digest of the target. -/
def filesBytes (s : Workspace here) : Bytes :=
  Fingerprint.filesBytes s.tree here (Sha256.hex s.targetBytes) s.found

/-- The bytes that are hashed for the whitelist. -/
def whitelistBytes (s : Workspace here) : Bytes :=
  Utf8.encode (s.request.whitelist.entries.flatMap Fingerprint.entryText)

/-- The key of a scan with reuse. -/
def key (s : Workspace here) : Text :=
  Fingerprint.key Sha256.hex s.tree here s.request.target s.request.whitelist
    s.request.options.maxFileSize s.found

theorem key_eq (s : Workspace here) :
    s.key = Sha256.hex s.filesBytes ++ ':' :: Sha256.hex s.whitelistBytes := rfl

/-- What the key of a workspace is made from. -/
def subject (s : Workspace here) : Fingerprint.Subject where
  tree := s.tree
  here := here
  target := s.request.target
  whitelist := s.request.whitelist
  maxFileSize := s.request.options.maxFileSize
  found := s.found

/-- Runs with one request hash the same if the same is hashed of their files. -/
theorem bytes_eq {s s' : Workspace here} (hrequest : s.request = s'.request)
    (hfiles : s.found.flatMap (Fingerprint.fileBytes s.tree here) =
      s'.found.flatMap (Fingerprint.fileBytes s'.tree here)) :
    s.targetBytes = s'.targetBytes ∧ s.filesBytes = s'.filesBytes ∧
      s.whitelistBytes = s'.whitelistBytes := by
  have htarget : s.targetBytes = s'.targetBytes := by rw [targetBytes, targetBytes, hrequest]
  refine ⟨htarget, ?_, by rw [whitelistBytes, whitelistBytes, hrequest]⟩
  rw [filesBytes, filesBytes, Fingerprint.filesBytes, Fingerprint.filesBytes, htarget, hfiles]

/-- Whether no two different parts of two keys have the same digest. -/
structure NoCollision (s s' : Workspace here) : Prop where
  target : Sha256.hex s.targetBytes = Sha256.hex s'.targetBytes → s.targetBytes = s'.targetBytes
  files : Sha256.hex s.filesBytes = Sha256.hex s'.filesBytes → s.filesBytes = s'.filesBytes
  whitelist : Sha256.hex s.whitelistBytes = Sha256.hex s'.whitelistBytes →
    s.whitelistBytes = s'.whitelistBytes

/-- Whether what is hashed of one workspace cannot be mistaken for something of another.  No name
holds a zero, no content looks as if a file of the other began in it or as if the file could not be
opened there, and the whitelists are plain, unless they are the same. -/
structure IsLegible (s s' : Workspace here) : Prop where
  lacks : s.tree.Lacks Fingerprint.separator
  unframed : ∀ f ∈ s.found, Fingerprint.IsUnframed s'.found (Fingerprint.contentBytes s.tree here f)
  unmarked : ∀ f ∈ s.found, Fingerprint.IsUnmarked s.tree s'.tree here f
  plain : s.request.whitelist.entries ≠ s'.request.whitelist.entries →
    ∀ e ∈ s.request.whitelist.entries, Fingerprint.IsPlain e

/-- Whether everything that matters to the outcome of a scan is the same. -/
structure Same (s s' : Workspace here) : Prop where
  found : s.found = s'.found
  maxFileSize : s.request.options.maxFileSize = s'.request.options.maxFileSize
  entries : s.request.whitelist.entries = s'.request.whitelist.entries
  reading : ∀ f ∈ s.found,
    (s.tree.read here f.path).toOption = (s'.tree.read here f.path).toOption

variable {s s' : Workspace here}

theorem IsLegible.lacks_found (h : s.IsLegible s') :
    ∀ f ∈ s.found, f.Lacks Fingerprint.separator :=
  Walk.not_mem_of_find h.lacks (by decide) (by decide) s.finds

/-- What matters is got back from a key. -/
theorem same_of_key_eq (hkey : s.key = s'.key) (hcollision : s.NoCollision s')
    (h : s.IsLegible s') (h' : s'.IsLegible s) : s.Same s' := by
  obtain ⟨htarget, hfiles, hentries⟩ := @Fingerprint.Subject.messages_of_key_eq s.subject s'.subject
    hkey ⟨hcollision.target, hcollision.files, hcollision.whitelist⟩
  obtain ⟨hfound, hcontent⟩ := Fingerprint.files_inj h.lacks_found h'.lacks_found h.unframed
    h'.unframed hfiles
  refine ⟨hfound, Fingerprint.maxFileSize_inj htarget, ?_, fun f hf => ?_⟩
  · by_contra hne
    exact hne (Fingerprint.entries_inj (h.plain hne) (h'.plain (Ne.symm hne)) hentries)
  · exact Fingerprint.reading_eq (h.unmarked f hf) (h'.unmarked f (hfound ▸ hf)) (hcontent f hf)

end Workspace

/-! ## Runs -/

section Run

variable {here : Place} {s : Workspace here} {tree' : FileTree} {clock : Clock} {now : Binary64}
  {r : Report}

/-- A look-up gives the report of the document that is kept, if one is. -/
theorem lookUp_eq_ok {file : Path} {key : Text} {tree : FileTree} {found : Option Report}
    (h : lookUp here file key tree = (tree', .ok found)) :
    ∃ document, withFile here file (ReportCache.get key) tree = (tree', .ok document) ∧
      (document = none ∧ found = none ∨ ∃ d r, document = some d ∧ found = some r ∧
        (Report.Draft.ofValue d >>= Report.Draft.complete) = .ok r) := by
  rw [lookUp] at h
  split at h
  · cases h
  · next hget =>
    cases h
    exact ⟨none, hget, .inl ⟨rfl, rfl⟩⟩
  · next d hget =>
    split at h
    · next r hr =>
      cases h
      exact ⟨some d, hget, .inr ⟨d, r, rfl, rfl, hr⟩⟩
    · cases h

/-- A run looks for a report under the key of what it has found.  Either it takes the report, or it
scans what it has found and keeps the report under the key. -/
theorem run_eq_ok {hash : Fingerprint.Hash} {q : Request} {tree : FileTree} {hit : Bool}
    (h : run hash here q clock now tree = (tree', .ok (r, hit))) :
    ∃ found key, Scan.find tree here q.target = .ok found ∧
      key = Fingerprint.key hash tree here q.target q.whitelist q.options.maxFileSize found.1 ∧
      (hit = true ∧ lookUp here q.file key tree = (tree', .ok (some r)) ∨
        hit = false ∧ ∃ tree₁, lookUp here q.file key tree = (tree₁, .ok none) ∧
          Scan.files tree₁ here q.target q.whitelist q.options clock now found = .ok r ∧
          withFile here q.file (ReportCache.put key (Report.Draft.of r).toValue) tree₁ =
            (tree', .ok ())) := by
  rw [run] at h
  rcases hfind : Scan.find tree here q.target with f | found
  · rw [hfind] at h
    cases h
  rw [hfind] at h
  dsimp only at h
  refine ⟨found, _, rfl, rfl, ?_⟩
  generalize Fingerprint.key hash tree here q.target q.whitelist q.options.maxFileSize found.1 = key
    at h ⊢
  rcases hlook : lookUp here q.file key tree with ⟨tree₁, f | _ | r'⟩
  · rw [hlook] at h
    cases h
  · rw [hlook] at h
    dsimp only at h
    rcases hfiles : Scan.files tree₁ here q.target q.whitelist q.options clock now found with f | r'
    · rw [scanAndKeep, hfiles] at h
      cases h
    · rw [scanAndKeep, hfiles] at h
      dsimp only at h
      rcases hput : withFile here q.file (ReportCache.put key (Report.Draft.of r').toValue) tree₁ with
        ⟨tree₂, f | ⟨⟩⟩
      · rw [hput] at h
        cases h
      · rw [hput] at h
        cases h
        exact .inr ⟨rfl, tree₁, rfl, hfiles, hput⟩
  · rw [hlook] at h
    cases h
    exact .inl ⟨rfl, rfl⟩

/-- A run that keeps a report has scanned what it found, after it had looked for the key. -/
theorem files_of_miss
    (h : run Sha256.hex here s.request clock now s.tree = (tree', .ok (r, false))) :
    Scan.files (lookUp here s.request.file s.key s.tree).1 here s.request.target
        s.request.whitelist s.request.options clock now (s.found, s.met) = .ok r ∧
      withFile here s.request.file (ReportCache.put s.key (Report.Draft.of r).toValue)
        (lookUp here s.request.file s.key s.tree).1 = (tree', .ok ()) := by
  obtain ⟨found, key, hfind, rfl, ⟨hhit, -⟩ | ⟨-, tree₁, hlook, hfiles, hput⟩⟩ := run_eq_ok h
  · cases hhit
  · rw [s.finds] at hfind
    cases hfind
    rw [Workspace.key, hlook]
    exact ⟨hfiles, hput⟩

theorem run_of_hit (hlook : lookUp here s.request.file s.key s.tree = (tree', .ok (some r))) :
    run Sha256.hex here s.request clock now s.tree = (tree', .ok (r, true)) := by
  rw [run, s.finds]
  dsimp only
  rw [← Workspace.key, hlook]

theorem run_of_miss {tree₁ : FileTree}
    (hlook : lookUp here s.request.file s.key s.tree = (tree₁, .ok none))
    (hfiles : Scan.files tree₁ here s.request.target s.request.whitelist s.request.options clock now
      (s.found, s.met) = .ok r)
    (hput : withFile here s.request.file (ReportCache.put s.key (Report.Draft.of r).toValue) tree₁ =
      (tree', .ok ())) :
    run Sha256.hex here s.request clock now s.tree = (tree', .ok (r, false)) := by
  rw [run, s.finds]
  dsimp only
  rw [← Workspace.key, hlook]
  dsimp only
  rw [scanAndKeep, hfiles]
  dsimp only
  rw [hput]
  rfl

variable {s' : Workspace here} {tree'' : FileTree} {clock' : Clock} {now' : Binary64} {r' : Report}

/-- What a run gives is the report of a document that is kept under its key afterwards. -/
theorem holds_of_run {hash : Fingerprint.Hash} {q : Request} {tree : FileTree} {hit : Bool}
    (h : run hash here q clock now tree = (tree', .ok (r, hit)))
    {found : List SourceFile × List Diagnostic} (hfind : Scan.find tree here q.target = .ok found) :
    ∃ d, Holds here q.file (Fingerprint.key hash tree here q.target q.whitelist
        q.options.maxFileSize found.1) d tree' ∧
      (Report.Draft.ofValue d >>= Report.Draft.complete) = .ok r := by
  obtain ⟨found', key, hfind', rfl, ⟨-, hlook⟩ | ⟨-, tree₁, -, -, hput⟩⟩ := run_eq_ok h
  · rw [hfind] at hfind'
    cases hfind'
    obtain ⟨document, hget, ⟨-, hnone⟩ | ⟨d, r', rfl, hr', hd⟩⟩ := lookUp_eq_ok hlook
    · cases hnone
    · cases hr'
      exact ⟨d, holds_of_get hget, hd⟩
  · rw [hfind] at hfind'
    cases hfind'
    exact ⟨_, holds_of_put hput, Report.ofValue_toValue_complete r⟩

/-- A run takes the report of the document that is kept under its key. -/
theorem report_eq_of_holds {hash : Fingerprint.Hash} {q : Request} {tree : FileTree} {hit : Bool}
    {found : List SourceFile × List Diagnostic} {d : Value}
    (hholds : Holds here q.file (Fingerprint.key hash tree here q.target q.whitelist
      q.options.maxFileSize found.1) d tree)
    (hfind : Scan.find tree here q.target = .ok found)
    (h : run hash here q clock now tree = (tree', .ok (r, hit))) :
    (Report.Draft.ofValue d >>= Report.Draft.complete) = .ok r := by
  obtain ⟨found', key, hfind', rfl, hcases⟩ := run_eq_ok h
  rw [hfind] at hfind'
  cases hfind'
  have hlooked : ∀ {tree₁ : FileTree} {taken : Option Report},
      lookUp here q.file (Fingerprint.key hash tree here q.target q.whitelist
        q.options.maxFileSize found.1) tree = (tree₁, .ok taken) →
      ∃ r', taken = some r' ∧ (Report.Draft.ofValue d >>= Report.Draft.complete) = .ok r' := by
    intro tree₁ taken hlook
    obtain ⟨document, hget, ⟨hnone, -⟩ | ⟨d', r', hd', hr', hreport⟩⟩ := lookUp_eq_ok hlook
    · rw [hholds.get_eq hget] at hnone
      cases hnone
    · rw [hholds.get_eq hget] at hd'
      cases hd'
      exact ⟨r', hr', hreport⟩
  rcases hcases with ⟨-, hlook⟩ | ⟨-, tree₁, hlook, -⟩
  · obtain ⟨r', hr', hreport⟩ := hlooked hlook
    cases hr'
    exact hreport
  · obtain ⟨r', hr', -⟩ := hlooked hlook
    cases hr'

/-- A run that finds a key takes the report that was put under it. -/
theorem hit_eq_put {file : Path} {tree left : FileTree}
    (hput : withFile here file (ReportCache.put s.key (Report.Draft.of r).toValue) tree =
      (left, .ok ()))
    (hkept : kept here s.request.file s.tree = kept here file left)
    (hhit : run Sha256.hex here s.request clock now s.tree = (tree', .ok (r', true))) : r' = r := by
  have hholds : Holds here s.request.file s.key (Report.Draft.of r).toValue s.tree := by
    rw [Holds, hkept]
    exact holds_of_put hput
  have hreport := report_eq_of_holds hholds s.finds hhit
  rw [Report.ofValue_toValue_complete] at hreport
  exact (Except.ok.inj hreport).symm

/-- A run that finds the key of another takes the report that the other has kept. -/
theorem hit_eq_kept
    (hmiss : run Sha256.hex here s.request clock now s.tree = (tree', .ok (r, false)))
    (hkept : kept here s'.request.file s'.tree = kept here s.request.file tree')
    (hhit : run Sha256.hex here s'.request clock' now' s'.tree = (tree'', .ok (r', true)))
    (hkey : s.key = s'.key) : r' = r := by
  obtain ⟨-, hput⟩ := files_of_miss hmiss
  rw [hkey] at hput
  exact hit_eq_put hput hkept hhit

/-- A look-up gives the report of a document that has been kept. -/
theorem lookUp_of_get {here : Place} {file : Path} {key : Text} {tree tree' : FileTree}
    {report : Report} (hget : withFile here file (ReportCache.get key) tree =
      (tree', .ok (some (Report.Draft.of report).toValue))) :
    lookUp here file key tree = (tree', .ok (some report)) := by
  rw [lookUp, hget]
  dsimp only
  rw [Report.ofValue_toValue_complete]

end Run

/-! ## A small workspace -/

/-- A scan of all files beneath the folder `r`, with the history file `h`. -/
def request : Request := ⟨Scan.everything, .empty, Scan.unhurried, Path.ofText "h".toList⟩

/-- The bytes of a file with one link. -/
def link : Bytes := Utf8.encode insecure

/-- The folder `r` with one file `a`. -/
def oneFile (b : Bytes) : FileTree :=
  ⟨[(["r".toList], .folder), (["r".toList, "a".toList], .file (.bytes b))], [], []⟩

/-- A tree with the history file `h`, which has been written `n` times and keeps some reports. -/
def withHistory (t : FileTree) (rows : List CacheRow) (n : ℕ) : FileTree :=
  t.put ["h".toList] (.file (.tables ⟨some [1], some [], some ⟨[], 0⟩, some rows, n⟩))

section OneFile

variable (b : Bytes)

theorem find_oneFile (rows : List CacheRow) (n : ℕ) :
    Scan.find (withHistory (oneFile b) rows n) [] Scan.everything =
      .ok ([⟨"r".toList, "a".toList⟩], []) := by cbv

/-- The workspace before there is a history file. -/
def before : Workspace [] := ⟨oneFile b, request, [⟨"r".toList, "a".toList⟩], [], by cbv⟩

/-- The workspace once a report has been kept. -/
def after (report : Report) : Workspace [] where
  tree := withHistory (oneFile b) [⟨(before b).key, (Report.Draft.of report).toValue⟩] 2
  request := request
  found := [⟨"r".toList, "a".toList⟩]
  met := []
  finds := find_oneFile b _ _

theorem lookUp_oneFile (key : Text) :
    lookUp [] request.file key (oneFile b) = (withHistory (oneFile b) [] 1, .ok none) := by cbv

theorem put_oneFile (key : Text) (document : Value) :
    withFile [] request.file (ReportCache.put key document) (withHistory (oneFile b) [] 1) =
      (withHistory (oneFile b) [⟨key, document⟩] 2, .ok ()) := by cbv

/-- The first run scans the file and keeps the report. -/
theorem run_before : ∃ report,
    Scan.files (withHistory (oneFile b) [] 1) [] request.target request.whitelist request.options
        (.stepping .zero) .zero ([⟨"r".toList, "a".toList⟩], []) = .ok report ∧
      run Sha256.hex [] request (.stepping .zero) .zero (oneFile b) =
        ((after b report).tree, .ok (report, false)) := by
  obtain ⟨report, hfiles⟩ := @Scan.exists_report_of_files (withHistory (oneFile b) [] 1) []
    request.target request.whitelist request.options (.stepping .zero) .zero
    [⟨"r".toList, "a".toList⟩] [] (Scan.not_timedOut_of_none rfl _ _) rfl
  exact ⟨report, hfiles, @run_of_miss [] (before b) _ _ _ _ _ (lookUp_oneFile b _) hfiles
    (put_oneFile b _ _)⟩

theorem get_oneFile (key : Text) (document : Value) :
    withFile [] request.file (ReportCache.get key) (withHistory (oneFile b) [⟨key, document⟩] 2) =
      (withHistory (oneFile b) [⟨key, document⟩] 2, .ok (some document)) := by cbv

theorem read_before : (before b).tree.read [] (SourceFile.path ⟨"r".toList, "a".toList⟩) = .ok b := by
  cbv

theorem read_oneFile (rows : List CacheRow) (n : ℕ) :
    (withHistory (oneFile b) rows n).read [] (SourceFile.path ⟨"r".toList, "a".toList⟩) = .ok b := by
  cbv

theorem bytes_before_after (report : Report) :
    (before b).targetBytes = (after b report).targetBytes ∧
      (before b).filesBytes = (after b report).filesBytes ∧
      (before b).whitelistBytes = (after b report).whitelistBytes := by
  refine Workspace.bytes_eq rfl (List.flatMap_congr fun f hf => Fingerprint.fileBytes_congr ?_)
  rw [List.mem_singleton.1 hf, read_before, after, read_oneFile]

theorem key_before_after (report : Report) : (before b).key = (after b report).key := by
  obtain ⟨-, hfiles, hwhitelist⟩ := bytes_before_after b report
  rw [Workspace.key_eq, Workspace.key_eq, hfiles, hwhitelist]

/-- The second run takes the report. -/
theorem run_after (report : Report) :
    run Sha256.hex [] request (.stepping .zero) .zero (after b report).tree =
      ((after b report).tree, .ok (report, true)) := by
  refine @run_of_hit [] (after b report) _ _ _ _ (lookUp_of_get ?_)
  rw [← key_before_after b report]
  exact get_oneFile b _ _

end OneFile

/-! ## Kept reports -/

/-- A scan with reuse has kept its report, and a later one finds it under the same key.  If no two
different parts of the keys have the same digest, what is hashed cannot be mistaken, and opening
the history file has changed none of the files, then a new scan would find the same violations in
as many files, and skip as many. -/
theorem hit_of_legible {here : Place} {first second : Workspace here} {left tree : FileTree}
    {clock clock' : Clock} {now now' : Binary64} {report reused : Report}
    (hmiss : run Sha256.hex here first.request clock now first.tree = (left, .ok (report, false)))
    (hkept : kept here second.request.file second.tree = kept here first.request.file left)
    (hhit : run Sha256.hex here second.request clock' now' second.tree = (tree, .ok (reused, true)))
    (hkey : first.key = second.key)
    (hquiet : ∀ f ∈ first.found,
      (lookUp here first.request.file first.key first.tree).1.read here f.path =
        first.tree.read here f.path)
    (hcollision : first.NoCollision second) (hlegible : first.IsLegible second)
    (hlegible' : second.IsLegible first) (htime : second.request.options.timeout = none)
    (clock'' : Clock) (now'' : Binary64) :
    ∃ fresh, Scan.run second.tree here second.request.target second.request.whitelist
        second.request.options clock'' now'' = .ok fresh ∧
      reused.violations = fresh.violations ∧ reused.filesScanned = fresh.filesScanned ∧
      reused.filesSkipped = fresh.filesSkipped ∧ reused.passed = fresh.passed := by
  obtain rfl := hit_eq_kept hmiss hkept hhit hkey
  obtain ⟨hfiles, -⟩ := files_of_miss hmiss
  have hsame := Workspace.same_of_key_eq hkey hcollision hlegible hlegible'
  have hread : ∀ f ∈ first.found,
      ((lookUp here first.request.file first.key first.tree).1.read here f.path).toOption =
        (second.tree.read here f.path).toOption := by
    intro f hf
    rw [hquiet f hf]
    exact hsame.reading f hf
  obtain ⟨fresh, hfresh, hagrees⟩ := Scan.files_of_reading
    hsame.maxFileSize hsame.entries hread (Scan.not_timedOut_of_none htime clock'' _) hfiles
  refine ⟨fresh, ?_, hagrees.violations, hagrees.filesScanned, hagrees.filesSkipped, ?_⟩
  · rw [Scan.run, second.finds, ← hsame.found]
    exact hfresh
  · rw [Report.passed, Report.passed, hagrees.violations]

theorem isLegible_oneFile {s s' : Workspace []} (hlacks : s.tree.Lacks Fingerprint.separator)
    (hfound : s.found = [⟨"r".toList, "a".toList⟩]) (hfound' : s'.found = s.found)
    (hrequest : s.request = s'.request)
    (hread : s.tree.read [] (SourceFile.path ⟨"r".toList, "a".toList⟩) = .ok link)
    (hread' : s'.tree.read [] (SourceFile.path ⟨"r".toList, "a".toList⟩) = .ok link) :
    s.IsLegible s' where
  lacks := hlacks
  unframed := by
    have hcontent : Fingerprint.contentBytes s.tree [] ⟨"r".toList, "a".toList⟩ = link := by
      rw [Fingerprint.contentBytes, hread]
    rw [hfound', hfound]
    intro f hf g hg
    rw [List.mem_singleton.1 hf, List.mem_singleton.1 hg, hcontent]
    decide
  unmarked := by
    rw [hfound]
    intro f hf e he
    rw [List.mem_singleton.1 hf, hread'] at he
    cases he
  plain := fun hne => absurd (by rw [hrequest]) hne

theorem hit_of_legible_link : ∃ report fresh,
    run Sha256.hex [] request (.stepping .zero) .zero (oneFile link) =
      ((after link report).tree, .ok (report, false)) ∧
    run Sha256.hex [] request (.stepping .zero) .zero (after link report).tree =
      ((after link report).tree, .ok (report, true)) ∧
    Scan.run (after link report).tree [] request.target request.whitelist request.options
      (.stepping .zero) .zero = .ok fresh ∧
    report.violations = fresh.violations ∧ report.passed = fresh.passed := by
  obtain ⟨report, -, hmiss⟩ := run_before link
  have hhit := run_after link report
  obtain ⟨htarget, hfiles, hwhitelist⟩ := bytes_before_after link report
  have hquiet : ∀ f ∈ (before link).found,
      (lookUp [] request.file (before link).key (before link).tree).1.read [] f.path =
        (before link).tree.read [] f.path := by
    intro f hf
    rw [List.mem_singleton.1 hf, read_before,
      show (before link).tree = oneFile link from rfl, lookUp_oneFile, read_oneFile]
  have hlacks : (before link).tree.Lacks Fingerprint.separator := FileTree.lacks_of_nodes (by decide)
  have hlacks' : (after link report).tree.Lacks Fingerprint.separator :=
    hlacks.put (by simp) (by decide) _
  obtain ⟨fresh, hfresh, hviolations, -, -, hpassed⟩ := @hit_of_legible [] (before link)
    (after link report) _ _ _ _ _ _ _ _ hmiss rfl hhit (key_before_after link report) hquiet
    ⟨fun _ => htarget, fun _ => hfiles, fun _ => hwhitelist⟩
    (isLegible_oneFile hlacks rfl rfl rfl (read_before link) (read_oneFile link _ _))
    (isLegible_oneFile hlacks' rfl rfl rfl (read_oneFile link _ _) (read_before link)) rfl
    (.stepping .zero) .zero
  exact ⟨report, fresh, hmiss, hhit, hfresh, hviolations, hpassed⟩

/-! ## A file that is hashed as two -/

/-- The bytes of a file that goes on where two files would be. -/
def joined : Bytes := Utf8.encode "x\x00r\x00b\x00http://".toList

/-- The tree with two files in place of one. -/
def split (t : FileTree) : FileTree :=
  (t.put ["r".toList, "a".toList] (.file (.bytes (Utf8.encode "x".toList)))).put
    ["r".toList, "b".toList] (.file (.bytes link))

theorem find_split (rows : List CacheRow) (n : ℕ) :
    Scan.find (split (withHistory (oneFile joined) rows n)) [] Scan.everything =
      .ok ([⟨"r".toList, "a".toList⟩, ⟨"r".toList, "b".toList⟩], []) := by cbv

/-- The workspace once a report has been kept and the file has been split. -/
def afterSplit (report : Report) : Workspace [] where
  tree := split (after joined report).tree
  request := request
  found := [⟨"r".toList, "a".toList⟩, ⟨"r".toList, "b".toList⟩]
  met := []
  finds := find_split _ _

theorem fileBytes_split (rows : List CacheRow) (n : ℕ) :
    [⟨"r".toList, "a".toList⟩].flatMap (Fingerprint.fileBytes (oneFile joined) []) =
      [⟨"r".toList, "a".toList⟩, ⟨"r".toList, "b".toList⟩].flatMap
        (Fingerprint.fileBytes (split (withHistory (oneFile joined) rows n)) []) := by cbv

theorem get_split (key : Text) (document : Value) :
    withFile [] request.file (ReportCache.get key)
        (split (withHistory (oneFile joined) [⟨key, document⟩] 2)) =
      (split (withHistory (oneFile joined) [⟨key, document⟩] 2), .ok (some document)) := by cbv

theorem violations_joined :
    (Scan.scanFile (withHistory (oneFile joined) [] 1) [] request.whitelist.index
      request.options.maxFileSize ⟨"r".toList, "a".toList⟩).violations = [] := by
  have htext : SourceText.ofBytes request.options.maxFileSize joined = .error .zeroByte := by cbv
  rw [Scan.scanFile, SourceText.read, read_oneFile]
  dsimp only
  rw [htext]
  rfl

theorem violations_split (rows : List CacheRow) (n : ℕ) :
    (Scan.scanFile (split (withHistory (oneFile joined) rows n)) [] request.whitelist.index
      request.options.maxFileSize ⟨"r".toList, "b".toList⟩).violations =
        [⟨"b".toList, 1, 0, insecure, "r".toList⟩] := by
  have hread : (split (withHistory (oneFile joined) rows n)).read []
      (SourceFile.path ⟨"r".toList, "b".toList⟩) = .ok link := by cbv
  have htext : SourceText.ofBytes request.options.maxFileSize link = .ok insecure := by cbv
  have hlines : Violation.ofText "r".toList "b".toList insecure =
      [⟨"b".toList, 1, 0, insecure, "r".toList⟩] := by cbv
  rw [Scan.scanFile, SourceText.read, hread]
  dsimp only
  rw [htext]
  dsimp only
  rw [hlines]
  rfl

/-- A report that was kept for one file is taken for the two that are hashed as it was: it passes,
though there is a link in one of them. -/
theorem hit_of_framed : ∃ report fresh,
    run Sha256.hex [] request (.stepping .zero) .zero (oneFile joined) =
      ((after joined report).tree, .ok (report, false)) ∧
    run Sha256.hex [] request (.stepping .zero) .zero (split (after joined report).tree) =
      (split (after joined report).tree, .ok (report, true)) ∧
    Scan.run (split (after joined report).tree) [] request.target request.whitelist request.options
      (.stepping .zero) .zero = .ok fresh ∧
    report.passed = true ∧ fresh.passed = false := by
  obtain ⟨report, hfiles, hmiss⟩ := run_before joined
  obtain ⟨-, hbytes, hwhitelist⟩ := @Workspace.bytes_eq [] (before joined) (afterSplit report) rfl
    (fileBytes_split _ _)
  have hkey : (before joined).key = (afterSplit report).key := by
    rw [Workspace.key_eq, Workspace.key_eq, hbytes, hwhitelist]
  have hlook : lookUp [] request.file (afterSplit report).key (afterSplit report).tree =
      ((afterSplit report).tree, .ok (some report)) := by
    rw [← hkey]
    exact lookUp_of_get (get_split _ _)
  obtain ⟨fresh, hfresh⟩ := @Scan.exists_report_of_files (afterSplit report).tree [] request.target
    request.whitelist request.options (.stepping .zero) .zero (afterSplit report).found []
    (Scan.not_timedOut_of_none rfl _ _) rfl
  refine ⟨report, fresh, hmiss, @run_of_hit [] (afterSplit report) _ _ _ _ hlook, ?_, ?_, ?_⟩
  · rw [Scan.run, show split (after joined report).tree = (afterSplit report).tree from rfl,
      show request.target = (afterSplit report).request.target from rfl, (afterSplit report).finds]
    exact hfresh
  · obtain ⟨hviolations, -⟩ := Scan.files_eq_ok hfiles
    rw [Report.passed, hviolations, List.flatMap_singleton, violations_joined]
    rfl
  · obtain ⟨hviolations, -⟩ := Scan.files_eq_ok hfresh
    have hmem : ⟨"b".toList, 1, 0, insecure, "r".toList⟩ ∈ fresh.violations := by
      rw [hviolations]
      refine List.mem_flatMap.2 ⟨⟨"r".toList, "b".toList⟩, by simp [afterSplit], ?_⟩
      rw [show (afterSplit report).tree = split (withHistory (oneFile joined) _ 2) from rfl,
        violations_split]
      exact List.mem_singleton_self _
    rw [Report.passed, List.isEmpty_eq_false_iff]
    exact List.ne_nil_of_mem hmem

end InsecureLinks.Store.CachedScan
