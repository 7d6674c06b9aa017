import Mathlib
import InsecureLinks.Proofs.Store.CachedScan

/-!
# Edits in the course of a scan with reuse

A scan with reuse reads every file twice, once for the key and once to scan it, and files may be
edited in between.  `Conditions.step` cuts a run into its steps, so that edits can stand anywhere
between them; without edits the steps are the run (`after_steps`).

If nothing that has been hashed is edited before it has been scanned, a report is kept under the key
of what was scanned, and whoever finds that key is right to take it (`kept_of_quiet`).  An edit in
between that is undone before the next run leaves a report that is wrong for the files as they were
hashed (`kept_of_reverted`).
-/

namespace InsecureLinks.Store.CachedScan

open Utf8 (Bytes)

/-! ## Steps and edits -/

/-- What a run goes by, whatever happens to the files meanwhile. -/
structure Conditions where
  here : Place
  request : Request
  clock : Clock
  now : Binary64

/-- How far a run has come. -/
inductive Stage
  | begun
  | resolved (files : List SourceFile × List Diagnostic)
  | keyed (files : List SourceFile × List Diagnostic) (key : Text)
  | missed (files : List SourceFile × List Diagnostic) (key : Text)
  | scanned (key : Text) (report : Report)
  | ended (outcome : Except CachedScanFault (Report × Bool))

/-- A run in the midst of a tree that others may edit. -/
structure State where
  tree : FileTree
  stage : Stage

/-- What happens next: someone edits the tree, or the run goes on. -/
inductive Event
  | edit (change : FileTree → FileTree)
  | step

/-- A run that has not begun. -/
def State.start (tree : FileTree) : State := ⟨tree, .begun⟩

/-- What has been hashed and not yet been scanned, with its key. -/
def Stage.pending : Stage → Option ((List SourceFile × List Diagnostic) × Text)
  | .keyed files key => some (files, key)
  | .missed files key => some (files, key)
  | _ => none

namespace Conditions

variable (c : Conditions)

/-- The key of the files that were found. -/
def key (tree : FileTree) (found : List SourceFile) : Text :=
  Fingerprint.key Sha256.hex tree c.here c.request.target c.request.whitelist
    c.request.options.maxFileSize found

/-- The next step of a run. -/
def step (s : State) : State :=
  match s.stage with
  | .begun =>
    match Scan.find s.tree c.here c.request.target with
    | .error f => ⟨s.tree, .ended (.error (.scan (.walk f)))⟩
    | .ok files => ⟨s.tree, .resolved files⟩
  | .resolved files => ⟨s.tree, .keyed files (c.key s.tree files.1)⟩
  | .keyed files key =>
    match lookUp c.here c.request.file key s.tree with
    | (tree, .error f) => ⟨tree, .ended (.error f)⟩
    | (tree, .ok (some r)) => ⟨tree, .ended (.ok (r, true))⟩
    | (tree, .ok none) => ⟨tree, .missed files key⟩
  | .missed files key =>
    match Scan.files s.tree c.here c.request.target c.request.whitelist c.request.options c.clock
      c.now files with
    | .error f => ⟨s.tree, .ended (.error (.scan f))⟩
    | .ok r => ⟨s.tree, .scanned key r⟩
  | .scanned key r =>
    match withFile c.here c.request.file (ReportCache.put key (Report.Draft.of r).toValue) s.tree with
    | (tree, .ok ()) => ⟨tree, .ended (.ok (r, false))⟩
    | (tree, .error f) => ⟨tree, .ended (.error (.store f))⟩
  | .ended _ => s

/-- The state after an event. -/
def next (s : State) : Event → State
  | .edit change => ⟨change s.tree, s.stage⟩
  | .step => c.step s

/-- The state after some events. -/
def after (s : State) (events : List Event) : State := events.foldl c.next s

theorem after_concat (s : State) (events : List Event) (e : Event) :
    c.after s (events ++ [e]) = c.next (c.after s events) e := by
  rw [after, List.foldl_append]
  rfl

/-- A run that has ended stays as it is. -/
theorem after_ended (tree : FileTree) (outcome : Except CachedScanFault (Report × Bool)) (n : ℕ) :
    c.after ⟨tree, .ended outcome⟩ (List.replicate n .step) = ⟨tree, .ended outcome⟩ := by
  induction n with
  | zero => rfl
  | succ n ih => exact ih

/-- Without edits, the steps of a run come to what the run comes to. -/
theorem after_steps (tree : FileTree) :
    c.after (.start tree) (List.replicate 5 .step) =
      ⟨(run Sha256.hex c.here c.request c.clock c.now tree).1,
        .ended (run Sha256.hex c.here c.request c.clock c.now tree).2⟩ := by
  change c.step (c.step (c.step (c.step (c.step (.start tree))))) = _
  rw [run]
  rcases hfind : Scan.find tree c.here c.request.target with f | files
  · simp only [step, State.start, hfind]
  · dsimp only
    rcases hlook : lookUp c.here c.request.file (c.key tree files.1) tree with ⟨tree₁, f | _ | r⟩
    · rw [key] at hlook
      simp only [step, State.start, hfind, key, hlook]
    · rw [key] at hlook
      rw [hlook]
      dsimp only
      rw [scanAndKeep]
      rcases hfiles : Scan.files tree₁ c.here c.request.target c.request.whitelist c.request.options
        c.clock c.now files with f | r
      · simp only [step, State.start, hfind, key, hlook, hfiles]
        rfl
      · dsimp only
        rcases hput : withFile c.here c.request.file (ReportCache.put _ (Report.Draft.of r).toValue)
          tree₁ with ⟨tree₂, f | _⟩
        · simp only [step, State.start, hfind, key, hlook, hfiles, hput]
          rfl
        · simp only [step, State.start, hfind, key, hlook, hfiles, hput]
          rfl
    · rw [key] at hlook
      simp only [step, State.start, hfind, key, hlook]

/-- What a step can do. -/
inductive Advances : State → State → Prop
  | unwalkable {tree f} (hfind : Scan.find tree c.here c.request.target = .error f) :
      Advances ⟨tree, .begun⟩ ⟨tree, .ended (.error (.scan (.walk f)))⟩
  | resolved {tree files} (hfind : Scan.find tree c.here c.request.target = .ok files) :
      Advances ⟨tree, .begun⟩ ⟨tree, .resolved files⟩
  | keyed {tree files} :
      Advances ⟨tree, .resolved files⟩ ⟨tree, .keyed files (c.key tree files.1)⟩
  | lookUpFailed {tree tree' files key f}
      (hlook : lookUp c.here c.request.file key tree = (tree', .error f)) :
      Advances ⟨tree, .keyed files key⟩ ⟨tree', .ended (.error f)⟩
  | hit {tree tree' files key r}
      (hlook : lookUp c.here c.request.file key tree = (tree', .ok (some r))) :
      Advances ⟨tree, .keyed files key⟩ ⟨tree', .ended (.ok (r, true))⟩
  | missed {tree tree' files key}
      (hlook : lookUp c.here c.request.file key tree = (tree', .ok none)) :
      Advances ⟨tree, .keyed files key⟩ ⟨tree', .missed files key⟩
  | scanFailed {tree files key f}
      (hfiles : Scan.files tree c.here c.request.target c.request.whitelist c.request.options
        c.clock c.now files = .error f) :
      Advances ⟨tree, .missed files key⟩ ⟨tree, .ended (.error (.scan f))⟩
  | scanned {tree files key r}
      (hfiles : Scan.files tree c.here c.request.target c.request.whitelist c.request.options
        c.clock c.now files = .ok r) :
      Advances ⟨tree, .missed files key⟩ ⟨tree, .scanned key r⟩
  | keepFailed {tree tree' key r f}
      (hput : withFile c.here c.request.file (ReportCache.put key (Report.Draft.of r).toValue) tree =
        (tree', .error f)) :
      Advances ⟨tree, .scanned key r⟩ ⟨tree', .ended (.error (.store f))⟩
  | kept {tree tree' key r}
      (hput : withFile c.here c.request.file (ReportCache.put key (Report.Draft.of r).toValue) tree =
        (tree', .ok ())) :
      Advances ⟨tree, .scanned key r⟩ ⟨tree', .ended (.ok (r, false))⟩
  | ended {tree outcome} : Advances ⟨tree, .ended outcome⟩ ⟨tree, .ended outcome⟩

theorem advances_step (s : State) : c.Advances s (c.step s) := by
  rcases s with ⟨tree, stage⟩
  unfold step
  cases stage with
  | begun =>
    dsimp only
    split
    · next hfind => exact .unwalkable hfind
    · next hfind => exact .resolved hfind
  | resolved files => exact .keyed
  | keyed files key =>
    dsimp only
    split
    · next hlook => exact .lookUpFailed hlook
    · next hlook => exact .hit hlook
    · next hlook => exact .missed hlook
  | missed files key =>
    dsimp only
    split
    · next hfiles => exact .scanFailed hfiles
    · next hfiles => exact .scanned hfiles
  | scanned key r =>
    dsimp only
    split
    · next hput => exact .kept hput
    · next hput => exact .keepFailed hput
  | ended outcome => exact .ended

/-! ## Quiet runs -/

/-- Whether no event changes what is read of a file between the hashing and the scanning of it, be
the event an edit or a step of the run itself. -/
def IsQuiet (tree : FileTree) (events : List Event) : Prop :=
  ∀ before e, before ++ [e] <+: events → ∀ files key,
    (c.after (.start tree) before).stage.pending = some (files, key) → ∀ f ∈ files.1,
      (c.after (.start tree) (before ++ [e])).tree.read c.here f.path =
        (c.after (.start tree) before).tree.read c.here f.path

/-- Whether a run has come to compute the key of some files, from a tree as it was then. -/
structure HasKeyed (tree : FileTree) (events : List Event)
    (files : List SourceFile × List Diagnostic) (key : Text) (seen : FileTree) : Prop where
  reached : ∃ before, before <+: events ∧ c.after (.start tree) before = ⟨seen, .keyed files key⟩
  key_eq : key = c.key seen files.1

variable {c} {tree seen : FileTree} {events : List Event} {e : Event} {key : Text}
  {files : List SourceFile × List Diagnostic} {s : State}

theorem IsQuiet.of_concat (h : c.IsQuiet tree (events ++ [e])) : c.IsQuiet tree events :=
  fun before e' hbefore => h before e' (hbefore.trans (List.prefix_append _ _))

theorem isQuiet_nil : c.IsQuiet tree [] := by
  intro before e hbefore
  cases List.append_ne_nil_of_right_ne_nil _ (List.cons_ne_nil e []) (List.prefix_nil.1 hbefore)

/-- A quiet run stays quiet if the next event leaves alone what is pending. -/
theorem IsQuiet.concat (h : c.IsQuiet tree events)
    (hnext : ∀ files key, (c.after (.start tree) events).stage.pending = some (files, key) →
      ∀ f ∈ files.1, (c.next (c.after (.start tree) events) e).tree.read c.here f.path =
        (c.after (.start tree) events).tree.read c.here f.path) :
    c.IsQuiet tree (events ++ [e]) := by
  intro before e' hbefore files key hpending f hf
  rcases List.prefix_concat_iff.1 hbefore with heq | hprefix
  · obtain ⟨hevents, hevent⟩ := List.append_inj' heq rfl
    obtain rfl := List.singleton_injective hevent
    subst hevents
    rw [after_concat]
    exact hnext files key hpending f hf
  · exact h before e' hprefix files key hpending f hf

theorem HasKeyed.concat (h : c.HasKeyed tree events files key seen) (e : Event) :
    c.HasKeyed tree (events ++ [e]) files key seen := by
  obtain ⟨before, hbefore, hafter⟩ := h.reached
  exact ⟨⟨before, hbefore.trans (List.prefix_append _ _), hafter⟩, h.key_eq⟩

/-- A step that leaves a key pending has computed it or has looked it up. -/
theorem pending_step (h : (c.step s).stage.pending = some (files, key)) :
    (c.step s = ⟨s.tree, .keyed files key⟩ ∧ key = c.key s.tree files.1) ∨
      s.stage.pending = some (files, key) := by
  have hadvances := c.advances_step s
  generalize c.step s = s' at h hadvances
  cases hadvances with
  | keyed =>
    cases h
    exact .inl ⟨rfl, rfl⟩
  | missed => exact .inr h
  | _ => cases h

/-- A step that has scanned has done so in the tree as it is. -/
theorem scanned_step {r : Report} (h : (c.step s).stage = .scanned key r) :
    ∃ files, s.stage.pending = some (files, key) ∧
      Scan.files s.tree c.here c.request.target c.request.whitelist c.request.options c.clock c.now
        files = .ok r := by
  have hadvances := c.advances_step s
  generalize c.step s = s' at h hadvances
  cases hadvances with
  | scanned hfiles =>
    cases h
    exact ⟨_, rfl, hfiles⟩
  | _ => cases h

/-- A run that has kept a report has put it under the key. -/
theorem kept_step {r r' : Report} {left : FileTree} (hstage : s.stage = .scanned key r)
    (h : c.step s = ⟨left, .ended (.ok (r', false))⟩) :
    withFile c.here c.request.file (ReportCache.put key (Report.Draft.of r).toValue) s.tree =
      (left, .ok ()) ∧ r' = r := by
  have hadvances := c.advances_step s
  rw [h] at hadvances
  cases hadvances with
  | kept hput =>
    cases hstage
    exact ⟨hput, rfl⟩
  | ended => cases hstage

/-- Until it is scanned, what a quiet run has hashed stays as it was. -/
theorem IsQuiet.pending (h : c.IsQuiet tree events)
    (hpending : (c.after (.start tree) events).stage.pending = some (files, key)) :
    ∃ seen, c.HasKeyed tree events files key seen ∧ ∀ f ∈ files.1,
      (c.after (.start tree) events).tree.read c.here f.path = seen.read c.here f.path := by
  induction events using List.reverseRecOn with
  | nil => cases hpending
  | append_singleton events e ih =>
    have hquiet := h events e (List.prefix_refl _) files key
    -- The files were pending before the event, unless it is the step that computes the key.
    have hbefore : (c.after (.start tree) events).stage.pending = some (files, key) →
        ∃ seen, c.HasKeyed tree (events ++ [e]) files key seen ∧ ∀ f ∈ files.1,
          (c.after (.start tree) (events ++ [e])).tree.read c.here f.path =
            seen.read c.here f.path := by
      intro hpending'
      obtain ⟨seen, hkeyed, hread⟩ := ih h.of_concat hpending'
      exact ⟨seen, hkeyed.concat e, fun f hf => (hquiet hpending' f hf).trans (hread f hf)⟩
    cases e with
    | edit change =>
      rw [after_concat] at hpending
      exact hbefore hpending
    | step =>
      rw [after_concat] at hpending
      rcases pending_step hpending with ⟨hstep, hkey⟩ | hpending'
      · have hafter : c.after (.start tree) (events ++ [.step]) =
            ⟨(c.after (.start tree) events).tree, .keyed files key⟩ := by
          rw [after_concat]
          exact hstep
        refine ⟨_, ⟨⟨_, List.prefix_refl _, hafter⟩, hkey⟩, fun f _ => ?_⟩
        rw [hafter]
      · exact hbefore hpending'

/-- What a quiet run has scanned is what it has hashed. -/
theorem IsQuiet.scanned {r : Report} (h : c.IsQuiet tree events)
    (hstage : (c.after (.start tree) events).stage = .scanned key r) :
    ∃ files seen, c.HasKeyed tree events files key seen ∧
      Scan.files seen c.here c.request.target c.request.whitelist c.request.options c.clock c.now
        files = .ok r := by
  induction events using List.reverseRecOn with
  | nil => cases hstage
  | append_singleton events e ih =>
    rw [after_concat] at hstage
    cases e with
    | edit change =>
      obtain ⟨files, seen, hkeyed, hfiles⟩ := ih h.of_concat hstage
      exact ⟨files, seen, hkeyed.concat _, hfiles⟩
    | step =>
      obtain ⟨files, hpending, hfiles⟩ := scanned_step hstage
      obtain ⟨seen, hkeyed, hread⟩ := h.of_concat.pending hpending
      refine ⟨files, seen, hkeyed.concat _, ?_⟩
      rw [← hfiles]
      exact (Scan.files_eq_of_read hread).symm

/-- Whether a later run is over what was read of the files when their key was computed. -/
structure IsRepeatedBy (c : Conditions) (found : List SourceFile) (seen : FileTree)
    (later : Workspace c.here) : Prop where
  target : later.request.target = c.request.target
  entries : later.request.whitelist.entries = c.request.whitelist.entries
  maxFileSize : later.request.options.maxFileSize = c.request.options.maxFileSize
  finds : later.found = found
  read : ∀ f ∈ found, later.tree.read c.here f.path = seen.read c.here f.path

theorem IsRepeatedBy.key_eq {found : List SourceFile} {later : Workspace c.here}
    (h : c.IsRepeatedBy found seen later) : later.key = c.key seen found := by
  have hfiles : later.found.flatMap (Fingerprint.fileBytes later.tree c.here) =
      found.flatMap (Fingerprint.fileBytes seen c.here) := by
    rw [h.finds, List.flatMap_def, List.flatMap_def]
    refine congrArg List.flatten (List.map_congr_left fun f hf => ?_)
    rw [Fingerprint.fileBytes, Fingerprint.fileBytes, Fingerprint.contentBytes,
      Fingerprint.contentBytes, h.read f hf]
  rw [Workspace.key, key, Fingerprint.key, Fingerprint.key, Fingerprint.files, Fingerprint.files,
    Fingerprint.filesBytes, Fingerprint.filesBytes, hfiles, Fingerprint.whitelist,
    Fingerprint.whitelist, h.entries, h.target, h.maxFileSize]

end Conditions

/-! ## Edits of one file -/

/-- A run over all files beneath the folder `r`. -/
def overEverything : Conditions := ⟨[], request, .stepping .zero, .zero⟩

/-- Someone writes the file `a` of the folder `r`. -/
def rewrites (b : Bytes) : Event := .edit fun t => t.put ["r".toList, "a".toList] (.file (.bytes b))

/-- The bytes of a file without a link. -/
def plain : Bytes := Utf8.encode "x".toList

section OneFile

variable (b : Bytes)

theorem step_start : overEverything.step (.start (oneFile b)) =
    ⟨oneFile b, .resolved ([⟨"r".toList, "a".toList⟩], [])⟩ := by
  have hfind := (before b).finds
  simp only [Conditions.step, State.start, overEverything]
  rw [show Scan.find (oneFile b) [] request.target = _ from hfind]
  rfl

theorem step_keyed (key : Text) :
    overEverything.step ⟨oneFile b, .keyed ([⟨"r".toList, "a".toList⟩], []) key⟩ =
      ⟨withHistory (oneFile b) [] 1, .missed ([⟨"r".toList, "a".toList⟩], []) key⟩ := by
  simp only [Conditions.step, overEverything]
  rw [lookUp_oneFile]

theorem exists_scan_oneFile (rows : List CacheRow) (n : ℕ) : ∃ report,
    Scan.files (withHistory (oneFile b) rows n) [] request.target request.whitelist request.options
        (.stepping .zero) .zero ([⟨"r".toList, "a".toList⟩], []) = .ok report ∧
      report.violations = (Scan.scanFile (withHistory (oneFile b) rows n) [] request.whitelist.index
        request.options.maxFileSize ⟨"r".toList, "a".toList⟩).violations := by
  obtain ⟨report, hfiles⟩ := @Scan.exists_report_of_files (withHistory (oneFile b) rows n) []
    request.target request.whitelist request.options (.stepping .zero) .zero
    [⟨"r".toList, "a".toList⟩] [] (Scan.not_timedOut_of_none rfl _ _) rfl
  obtain ⟨hviolations, -⟩ := Scan.files_eq_ok hfiles
  exact ⟨report, hfiles, by rw [hviolations, List.flatMap_singleton]⟩

theorem step_scanned {key : Text} {report : Report}
    (hfiles : Scan.files (withHistory (oneFile b) [] 1) [] request.target request.whitelist
      request.options (.stepping .zero) .zero ([⟨"r".toList, "a".toList⟩], []) = .ok report) :
    overEverything.step ⟨withHistory (oneFile b) [] 1,
        .missed ([⟨"r".toList, "a".toList⟩], []) key⟩ =
      ⟨withHistory (oneFile b) [] 1, .scanned key report⟩ := by
  simp only [Conditions.step, overEverything]
  rw [hfiles]

theorem step_kept (key : Text) (report : Report) :
    overEverything.step ⟨withHistory (oneFile b) [] 1, .scanned key report⟩ =
      ⟨withHistory (oneFile b) [⟨key, (Report.Draft.of report).toValue⟩] 2,
        .ended (.ok (report, false))⟩ := by
  simp only [Conditions.step, overEverything]
  rw [put_oneFile]

theorem after_two_steps : overEverything.after (.start (oneFile b)) (List.replicate 2 .step) =
    ⟨oneFile b, .keyed ([⟨"r".toList, "a".toList⟩], []) (before b).key⟩ := by
  change overEverything.step (overEverything.step (.start (oneFile b))) = _
  rw [step_start]
  rfl

theorem after_three_steps : overEverything.after (.start (oneFile b)) (List.replicate 3 .step) =
    ⟨withHistory (oneFile b) [] 1,
      .missed ([⟨"r".toList, "a".toList⟩], []) (before b).key⟩ := by
  rw [List.replicate_succ', Conditions.after_concat, after_two_steps]
  exact step_keyed b _

/-- A run is quiet up to the scan if nobody edits the files from some point before it begins on. -/
theorem isQuiet_steps {tree : FileTree} {events : List Event}
    (hquiet : overEverything.IsQuiet tree events)
    (hstart : overEverything.after (.start tree) events = .start (oneFile b)) :
    overEverything.IsQuiet tree (events ++ List.replicate 4 .step) := by
  have hafter : ∀ k, overEverything.after (.start tree) (events ++ List.replicate k .step) =
      overEverything.after (.start (oneFile b)) (List.replicate k .step) := by
    intro k
    rw [← hstart, Conditions.after, Conditions.after, Conditions.after, List.foldl_append]
  have hone : overEverything.IsQuiet tree (events ++ List.replicate 1 .step) := by
    refine hquiet.concat fun files key hpending => ?_
    rw [hstart] at hpending
    cases hpending
  have htwo : overEverything.IsQuiet tree (events ++ List.replicate 2 .step) := by
    rw [List.replicate_succ', ← List.append_assoc]
    refine hone.concat fun files key hpending => ?_
    rw [hafter, show overEverything.after (.start (oneFile b)) (List.replicate 1 .step) =
      overEverything.step (.start (oneFile b)) from rfl, step_start] at hpending
    cases hpending
  -- Only the look-up and the scan come upon something pending.
  have hthree : overEverything.IsQuiet tree (events ++ List.replicate 3 .step) := by
    rw [List.replicate_succ', ← List.append_assoc]
    refine htwo.concat fun files key hpending f hf => ?_
    rw [hafter, after_two_steps] at hpending ⊢
    cases hpending
    rw [List.mem_singleton.1 hf, Conditions.next, step_keyed]
    exact (read_oneFile b _ _).trans (read_before b).symm
  rw [List.replicate_succ', ← List.append_assoc]
  refine hthree.concat fun files key hpending f hf => ?_
  rw [hafter, after_three_steps]
  obtain ⟨report, hfiles, -⟩ := exists_scan_oneFile b [] 1
  rw [Conditions.next, step_scanned b hfiles]

end OneFile

/-! ## Kept reports -/

/-- If nothing is edited between the hashing and the scanning of it, the report that is kept under a
key is what a scan of the files gives from which the key was computed.  A later run over the same
contents has the same key; if it takes a report that is kept there, it takes this one, and a new
scan would agree with it. -/
theorem kept_of_quiet {c : Conditions} {tree left : FileTree} {events : List Event} {key : Text}
    {report : Report} (hquiet : c.IsQuiet tree events)
    (hstage : (c.after (.start tree) events).stage = .scanned key report)
    (hkept : c.step (c.after (.start tree) events) = ⟨left, .ended (.ok (report, false))⟩) :
    ∃ files seen, c.HasKeyed tree events files key seen ∧
      Scan.files seen c.here c.request.target c.request.whitelist c.request.options c.clock c.now
        files = .ok report ∧
      ∀ later : Workspace c.here, c.IsRepeatedBy files.1 seen later →
        later.key = key ∧
        (kept c.here later.request.file later.tree = kept c.here c.request.file left →
          ∀ clock now tree' reused,
            run Sha256.hex c.here later.request clock now later.tree = (tree', .ok (reused, true)) →
            reused = report) ∧
        ∀ clock now,
          (Scan.schedule later.request.options clock later.found.length).timedOut = false →
          ∃ fresh, Scan.run later.tree c.here later.request.target later.request.whitelist
              later.request.options clock now = .ok fresh ∧ report.Agrees fresh := by
  obtain ⟨files, seen, hkeyed, hfiles⟩ := hquiet.scanned hstage
  refine ⟨files, seen, hkeyed, hfiles, fun later hlater => ?_⟩
  have hkey : later.key = key := hlater.key_eq.trans hkeyed.key_eq.symm
  refine ⟨hkey, fun hsame clock now tree' reused hhit => ?_, fun clock now htime => ?_⟩
  · obtain ⟨hput, -⟩ := Conditions.kept_step hstage hkept
    rw [← hkey] at hput
    exact hit_eq_put hput hsame hhit
  · have hread : ∀ f ∈ files.1, (seen.read c.here f.path).toOption =
        (later.tree.read c.here f.path).toOption := fun f hf => by rw [hlater.read f hf]
    rw [hlater.finds] at htime
    obtain ⟨fresh, hfresh, hagrees⟩ := Scan.files_of_reading hlater.maxFileSize.symm
      hlater.entries.symm hread htime hfiles
    refine ⟨fresh, ?_, hagrees⟩
    rw [Scan.run, later.finds, hlater.finds]
    exact hfresh

theorem kept_of_quiet_rewritten : ∃ report files seen,
    overEverything.after (.start (oneFile plain)) (rewrites link :: List.replicate 5 .step) =
        ⟨(after link report).tree, .ended (.ok (report, false))⟩ ∧
      overEverything.HasKeyed (oneFile plain) (rewrites link :: List.replicate 4 .step) files
        (before link).key seen ∧
      Scan.files seen [] request.target request.whitelist request.options (.stepping .zero) .zero
        files = .ok report := by
  obtain ⟨report, hfiles, -⟩ := exists_scan_oneFile link [] 1
  have hthree : overEverything.after (.start (oneFile plain))
      (rewrites link :: List.replicate 3 .step) = ⟨withHistory (oneFile link) [] 1,
        .missed ([⟨"r".toList, "a".toList⟩], []) (before link).key⟩ := after_three_steps link
  have hfour : overEverything.after (.start (oneFile plain))
      (rewrites link :: List.replicate 4 .step) =
        ⟨withHistory (oneFile link) [] 1, .scanned (before link).key report⟩ := by
    rw [show rewrites link :: List.replicate 4 .step =
      (rewrites link :: List.replicate 3 .step) ++ [.step] from rfl, Conditions.after_concat, hthree]
    exact step_scanned link hfiles
  have hkept := step_kept link (before link).key report
  have hnone : overEverything.IsQuiet (oneFile plain) [] := Conditions.isQuiet_nil
  have hone : overEverything.IsQuiet (oneFile plain) ([] ++ [rewrites link]) :=
    hnone.concat (by rintro _ _ ⟨⟩)
  have hquiet := isQuiet_steps link hone rfl
  obtain ⟨files, seen, hkeyed, hseen, -⟩ := @kept_of_quiet overEverything (oneFile plain) _
    (rewrites link :: List.replicate 4 .step) (before link).key report hquiet (by rw [hfour])
    (by rw [hfour]; exact hkept)
  refine ⟨report, files, seen, ?_, hkeyed, hseen⟩
  rw [show rewrites link :: List.replicate 5 .step =
    (rewrites link :: List.replicate 4 .step) ++ [.step] from rfl, Conditions.after_concat, hfour]
  exact hkept

/-! ## An edit that is undone -/

/-- A run in the midst of which the file `a` is given a link after it has been hashed, and gets back
what it held once it has been scanned. -/
def reverted : List Event :=
  List.replicate 3 .step ++ [rewrites link, .step] ++ [rewrites plain, .step]

theorem violations_link : (Scan.scanFile (withHistory (oneFile link) [] 1) []
    request.whitelist.index request.options.maxFileSize ⟨"r".toList, "a".toList⟩).violations =
      [⟨"a".toList, 1, 0, insecure, "r".toList⟩] := by
  have htext : SourceText.ofBytes request.options.maxFileSize link = .ok insecure := by cbv
  have hlines : Violation.ofText "r".toList "a".toList insecure =
      [⟨"a".toList, 1, 0, insecure, "r".toList⟩] := by cbv
  rw [Scan.scanFile, SourceText.read, read_oneFile]
  dsimp only
  rw [htext]
  dsimp only
  rw [hlines]
  rfl

theorem violations_plain (rows : List CacheRow) (n : ℕ) :
    (Scan.scanFile (withHistory (oneFile plain) rows n) [] request.whitelist.index
      request.options.maxFileSize ⟨"r".toList, "a".toList⟩).violations = [] := by
  have htext : SourceText.ofBytes request.options.maxFileSize plain = .ok "x".toList := by cbv
  have hlines : Violation.ofText "r".toList "a".toList "x".toList = [] := by cbv
  rw [Scan.scanFile, SourceText.read, read_oneFile]
  dsimp only
  rw [htext]
  dsimp only
  rw [hlines]
  rfl

/-- What is kept under the key of a file without a link is the report of the link that was there
when it was scanned: the next run takes it, though a new scan would pass. -/
theorem kept_of_reverted : ∃ report fresh,
    overEverything.after (.start (oneFile plain)) reverted =
        ⟨(after plain report).tree, .ended (.ok (report, false))⟩ ∧
      run Sha256.hex [] request (.stepping .zero) .zero (after plain report).tree =
        ((after plain report).tree, .ok (report, true)) ∧
      Scan.run (after plain report).tree [] request.target request.whitelist request.options
        (.stepping .zero) .zero = .ok fresh ∧
      report.passed = false ∧ fresh.passed = true := by
  obtain ⟨report, hfiles, hviolations⟩ := exists_scan_oneFile link [] 1
  obtain ⟨fresh, hfresh, hnone⟩ := exists_scan_oneFile plain
    [⟨(before plain).key, (Report.Draft.of report).toValue⟩] 2
  have hscanned : overEverything.after (.start (oneFile plain))
      (List.replicate 3 .step ++ [rewrites link, .step]) =
        ⟨withHistory (oneFile link) [] 1, .scanned (before plain).key report⟩ := by
    rw [List.append_cons, Conditions.after_concat, Conditions.after_concat, after_three_steps]
    exact step_scanned link hfiles
  have hends : overEverything.after (.start (oneFile plain)) reverted =
      ⟨(after plain report).tree, .ended (.ok (report, false))⟩ := by
    rw [reverted, List.append_cons, Conditions.after_concat, Conditions.after_concat, hscanned]
    exact step_kept plain _ report
  refine ⟨report, fresh, hends, run_after plain report, ?_, ?_, ?_⟩
  · rw [Scan.run, show request.target = (after plain report).request.target from rfl,
      (after plain report).finds]
    exact hfresh
  · rw [Report.passed, hviolations, violations_link]
    rfl
  · rw [Report.passed, hnone, violations_plain]
    rfl

end InsecureLinks.Store.CachedScan
