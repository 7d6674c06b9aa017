import Mathlib
import InsecureLinks.Proofs.CommandLine.Command

/-!
# What a check does

A check sets its scan up, carries it out, and then writes the report and saves it, as far as this is
wanted (`scans_of_inspect`, `writes_of_conclude`).  One that is set up and neither takes nor saves a
report ends as its scan and the writing of its report do, unless something that it shows is refused
(`ends_inspect`, `ends_conclude`).
-/

namespace InsecureLinks.CommandLine.Check

open FileTree Command

variable {s : Surroundings} {c : Choices} {project : Text} {settings : Settings} {r : Report}
  {w w₁ w₂ : Workspace} {t t' : FileTree}

/-! ## Setting up and scanning -/

/-- Whether a scan of a project is set up in a tree with these settings and by this plan. -/
structure SetsUp (s : Surroundings) (c : Choices) (project : Text) (t : FileTree)
    (settings : Settings) (p : Plan) : Prop where
  load : ∃ loaded, Settings.load s.yaml s.environment t s.here project c.settingsFile = .ok loaded ∧
    applyChoices c loaded = settings
  whitelist : ∃ path, settings.whitelistPath s.environment t s.here = .ok path ∧
    Whitelist.load t s.here (path.map Path.text) = .ok p.whitelist
  target : settings.target s.environment = .ok p.target
  options : p.options =
    ⟨settings.workers, settings.maxFileSize, settings.timeout, s.processors⟩

/-- There is one plan at most by which a scan is set up. -/
theorem SetsUp.plan_unique {p p' : Plan} (h : SetsUp s c project t settings p)
    (h' : SetsUp s c project t settings p') : p = p' := by
  obtain ⟨path, hpath, hwhitelist⟩ := h.whitelist
  obtain ⟨path', hpath', hwhitelist'⟩ := h'.whitelist
  cases hpath.symm.trans hpath'
  have hload : p.whitelist = p'.whitelist := Except.ok.inj (hwhitelist.symm.trans hwhitelist')
  have htarget : p.target = p'.target := Except.ok.inj (h.target.symm.trans h'.target)
  have hoptions : p.options = p'.options := h.options.trans h'.options.symm
  calc p = ⟨p.target, p.whitelist, p.options⟩ := rfl
    _ = p' := by rw [hload, htarget, hoptions]

/-- How a plan is carried out: with reuse, or by a scan that leaves the tree as it is. -/
inductive Scans (s : Surroundings) (settings : Settings) (p : Plan) (t : FileTree) :
    (cache : Bool) → Report → FileTree → Prop
  | reuse {r : Report} {hit : Bool} {t' : FileTree} (h : Store.CachedScan.run s.hash s.here
      ⟨p.target, p.whitelist, p.options, historyFile settings⟩ s.clock s.now t =
        (t', .ok (r, hit))) : Scans s settings p t true r t'
  | fresh {r : Report} (h : Scan.run t s.here p.target p.whitelist p.options s.clock s.now = .ok r) :
      Scans s settings p t false r t

theorem scans_of_scanOrReuse {p : Plan} (h : Gives (scanOrReuse s settings p) w r w₁) :
    Scans s settings p w.tree true r w₁.tree := by
  rw [scanOrReuse] at h
  rw [gives_bind] at h
  obtain ⟨⟨r', hit⟩, w₂, hrun, h⟩ := h
  have hstep := step_of_change hrun
  cases hit with
  | false =>
    obtain ⟨rfl, rfl⟩ := gives_pure.1 h
    exact .reuse hstep
  | true =>
    obtain ⟨⟨⟩, w₃, hline, hreport⟩ := gives_bind.1 h
    obtain ⟨rfl, rfl⟩ := gives_pure.1 hreport
    rw [tree_of_line hline]
    exact .reuse hstep

theorem scan_gives {p : Plan} (h : Gives (Command.scan s p) w r w₁) :
    Scans s settings p w.tree false r w₁.tree := by
  rw [Command.scan, gives_bind] at h
  obtain ⟨t, w₂, ht, h⟩ := h
  obtain ⟨rfl, rfl⟩ := gives_tree.1 ht
  obtain ⟨hrun, rfl⟩ := gives_lift.1 h
  exact .fresh hrun

theorem settings_gives (h : Gives (Command.settings s c project) w settings w₁) :
    (∃ loaded, Settings.load s.yaml s.environment w.tree s.here project c.settingsFile = .ok loaded ∧
      applyChoices c loaded = settings) ∧ w₁ = w := by
  rw [Command.settings, gives_bind] at h
  obtain ⟨t, w₂, ht, h⟩ := h
  obtain ⟨rfl, rfl⟩ := gives_tree.1 ht
  dsimp only at h
  rw [gives_bind] at h
  obtain ⟨loaded, w₃, hlift, h⟩ := h
  obtain ⟨hload, rfl⟩ := gives_lift.1 hlift
  obtain ⟨rfl, rfl⟩ := gives_pure.1 h
  exact ⟨⟨loaded, hload, rfl⟩, rfl⟩

theorem plan_gives {p : Plan} (h : Gives (Command.plan s settings) w p w₁) :
    (∃ path, settings.whitelistPath s.environment w.tree s.here = .ok path ∧
      Whitelist.load w.tree s.here (path.map Path.text) = .ok p.whitelist) ∧
      settings.target s.environment = .ok p.target ∧
      p.options = ⟨settings.workers, settings.maxFileSize, settings.timeout, s.processors⟩ ∧
      w₁ = w := by
  unfold Command.plan at h
  rw [gives_bind] at h
  obtain ⟨t, w₂, ht, h⟩ := h
  obtain ⟨rfl, rfl⟩ := gives_tree.1 ht
  rw [gives_bind] at h
  obtain ⟨path, w₃, hlift, h⟩ := h
  obtain ⟨hpath, rfl⟩ := gives_lift.1 hlift
  rw [gives_bind] at h
  obtain ⟨t, w₄, ht, h⟩ := h
  obtain ⟨rfl, rfl⟩ := gives_tree.1 ht
  rw [gives_bind] at h
  obtain ⟨whitelist, w₅, hlift, h⟩ := h
  obtain ⟨hwhitelist, rfl⟩ := gives_lift.1 hlift
  rw [gives_bind] at h
  obtain ⟨target, w₆, hlift, h⟩ := h
  obtain ⟨htarget, rfl⟩ := gives_lift.1 hlift
  obtain ⟨rfl, rfl⟩ := gives_pure.1 h
  exact ⟨⟨path, hpath, hwhitelist⟩, htarget, rfl, rfl⟩

/-- The first half of a check sets a scan up and carries it out. -/
theorem scans_of_inspect (h : Gives (inspect s c project) w (settings, r) w₁) :
    ∃ p, SetsUp s c project w.tree settings p ∧ Scans s settings p w.tree c.cache r w₁.tree := by
  rw [inspect, gives_bind] at h
  obtain ⟨settings', w₂, hsettings, h⟩ := h
  obtain ⟨hload, rfl⟩ := settings_gives hsettings
  rw [gives_bind] at h
  obtain ⟨p, w₃, hplan, h⟩ := h
  obtain ⟨hwhitelist, htarget, hoptions, rfl⟩ := plan_gives hplan
  rw [gives_bind] at h
  obtain ⟨⟨⟩, w₄, hline, h⟩ := h
  rw [← tree_of_line hline] at hload hwhitelist ⊢
  -- The report comes from one of the two ways to scan.
  have hreport : ∃ report, Scans s settings' p w₄.tree c.cache report w₁.tree ∧
      (settings, r) = (settings', report) := by
    rcases hcache : c.cache with _ | _
    · simp only [hcache] at h
      obtain ⟨report, w₅, hscan, hpure⟩ := gives_bind.1 h
      obtain ⟨heq, rfl⟩ := gives_pure.1 hpure
      exact ⟨report, scan_gives hscan, heq⟩
    · simp only [hcache] at h
      obtain ⟨report, w₅, hscan, hpure⟩ := gives_bind.1 h
      obtain ⟨heq, rfl⟩ := gives_pure.1 hpure
      exact ⟨report, scans_of_scanOrReuse hscan, heq⟩
  obtain ⟨report, hscans, heq⟩ := hreport
  cases heq
  exact ⟨p, ⟨hload, hwhitelist, htarget, hoptions⟩, hscans⟩

theorem gives_settings {loaded : Settings}
    (h : Settings.load s.yaml s.environment w.tree s.here project c.settingsFile = .ok loaded) :
    Gives (Command.settings s c project) w (applyChoices c loaded) w :=
  (gives_tree_self w).bind ((gives_of_ok h).bind (gives_pure.2 ⟨rfl, rfl⟩))

theorem gives_plan {p : Plan} (h : SetsUp s c project w.tree settings p) :
    Gives (Command.plan s settings) w p w := by
  obtain ⟨path, hpath, hwhitelist⟩ := h.whitelist
  refine (gives_tree_self w).bind ?_
  refine (gives_of_ok hpath).bind ?_
  refine (gives_tree_self w).bind ?_
  refine (gives_of_ok hwhitelist).bind ?_
  refine (gives_of_ok h.target).bind ?_
  exact gives_pure.2 ⟨by rw [← h.options], rfl⟩

/-- The first half of a check that is set up and takes no kept report ends as the scan does. -/
theorem ends_inspect {p : Plan} {outcome : Except ScanFault Report} {shown : Print → Prop}
    (hset : SetsUp s c project w.tree settings p) (hcache : c.cache = false)
    (hrun : Scan.run w.tree s.here p.target p.whitelist p.options s.clock s.now = outcome)
    (hopening : shown (.line (openingLine settings.projectDir))) :
    Ends s shown (inspect s c project) w
      ((outcome.mapError CommandFault.scan).map fun r => (settings, r)) w.tree := by
  obtain ⟨loaded, hload, rfl⟩ := hset.load
  refine (Ends.of_gives (gives_settings hload)).bind fun w₁ h₁ => ?_
  have hplan : Ends s shown (Command.plan s (applyChoices c loaded)) w₁ (.ok p) w.tree := by
    rw [← h₁] at hset ⊢
    exact .of_gives (gives_plan hset)
  refine hplan.bind fun w₂ h₂ => ?_
  rw [← h₂] at hrun ⊢
  refine (ends_line hopening w₂).bind fun w₃ h₃ => ?_
  rw [← h₃] at hrun ⊢
  simp only [hcache, Bool.false_eq_true, if_false]
  rcases outcome with f | r
  · have hscan : Fails (Command.scan s p) w₃ (.scan f) w₃ :=
      (gives_tree_self w₃).bind_fails (fails_of_error hrun)
    exact (Ends.of_fails hscan).bind_error
  · have hscan : Gives (Command.scan s p) w₃ r w₃ :=
      (gives_tree_self w₃).bind (gives_of_ok hrun)
    exact (Ends.of_gives hscan).bind fun w₄ h₄ => h₄ ▸ ends_pure

/-! ## Writing and saving -/

/-- What writing the report files does to the tree, if they are written. -/
inductive Writes (s : Surroundings) (settings : Settings) (r : Report) :
    (reports : Bool) → FileTree → FileTree → Prop
  | nothing (t : FileTree) : Writes s settings r false t t
  | files {t t' : FileTree} {folder : Path} {paths : List Path}
      (hfolder : settings.reportPath s.environment = .ok folder)
      (h : ReportFiles.write s.screen.page s.here folder true true r t = (t', .ok paths)) :
      Writes s settings r true t t'

/-- What saving the report does to the tree, if it is saved. -/
inductive Saves (s : Surroundings) (settings : Settings) (r : Report) :
    (record : Bool) → FileTree → FileTree → Prop
  | nothing (t : FileTree) : Saves s settings r false t t
  | scan {t t' : FileTree} {id : Text} (h : Store.withFile s.here (historyFile settings)
      (Store.History.save id (Report.Draft.of r)) t = (t', .ok ())) : Saves s settings r true t t'

theorem writes_of_writeFiles {u : Unit} (h : Gives (writeFiles s settings r) w u w₁) :
    Writes s settings r true w.tree w₁.tree := by
  rw [writeFiles, gives_bind] at h
  obtain ⟨folder, w₂, hlift, h⟩ := h
  obtain ⟨hfolder, rfl⟩ := gives_lift.1 hlift
  rw [gives_bind] at h
  obtain ⟨paths, w₃, hchange, h⟩ := h
  rw [gives_bind] at h
  obtain ⟨⟨⟩, w₄, hlines, h⟩ := h
  obtain ⟨-, rfl⟩ := gives_pure.1 h
  rw [tree_of_forIn (fun p _ w u w' hline => tree_of_line hline) hlines]
  exact .files hfolder (step_of_change hchange)

theorem saves_of_save {u : Unit} (h : Gives (save s (historyFile settings) r) w u w₁) :
    Saves s settings r true w.tree w₁.tree := by
  rw [save, gives_bind] at h
  obtain ⟨opened, w₂, hopen, h⟩ := h
  rw [gives_bind] at h
  obtain ⟨v, w₃, hget, h⟩ := h
  obtain ⟨rfl, rfl⟩ := gives_get.1 hget
  dsimp only at h
  rw [gives_bind] at h
  obtain ⟨⟨⟩, w₄, hmodify, h⟩ := h
  rw [gives_bind] at h
  obtain ⟨⟨⟩, w₅, hsave, h⟩ := h
  rw [tree_of_line h]
  have hopened := step_of_change hopen
  have hsaved := step_of_change hsave
  rw [gives_modify.1 hmodify] at hsaved
  have hfile : Store.withFile s.here (historyFile settings)
      (Store.History.save (s.newId w₃.idsUsed) (Report.Draft.of r)) w.tree = (w₅.tree, .ok ()) := by
    rw [Store.withFile, hopened]
    exact hsaved
  exact .scan hfile

/-- The second half of a check writes the report and saves it, as far as this is wanted. -/
theorem writes_of_conclude {status : ℕ} (h : Gives (conclude s c settings r) w status w₁) :
    status = r.exitCode ∧
      ∃ t, Writes s settings r settings.reports w.tree t ∧ Saves s settings r c.record t w₁.tree := by
  have hclose : ∀ {w : Workspace}, Gives (do
        line s (closingLine r)
        return r.exitCode) w status w₁ → status = r.exitCode ∧ w₁.tree = w.tree := by
    intro w h
    obtain ⟨⟨⟩, w₂, hline, hpure⟩ := gives_bind.1 h
    obtain ⟨rfl, rfl⟩ := gives_pure.1 hpure
    exact ⟨rfl, tree_of_line hline⟩
  have hsave : ∀ {w : Workspace}, Gives (do
        if c.record then save s (historyFile settings) r
        line s (closingLine r)
        return r.exitCode) w status w₁ →
      status = r.exitCode ∧ Saves s settings r c.record w.tree w₁.tree := by
    intro w h
    rcases hrecord : c.record with _ | _
    · simp only [hrecord] at h
      obtain ⟨hstatus, htree⟩ := hclose h
      rw [htree]
      exact ⟨hstatus, .nothing _⟩
    · simp only [hrecord] at h
      obtain ⟨⟨⟩, w₂, hsaved, hrest⟩ := gives_bind.1 h
      obtain ⟨hstatus, htree⟩ := hclose hrest
      rw [htree]
      exact ⟨hstatus, saves_of_save hsaved⟩
  rw [conclude, gives_bind] at h
  obtain ⟨prints, w₂, hlift, h⟩ := h
  obtain ⟨-, rfl⟩ := gives_lift.1 hlift
  obtain ⟨⟨⟩, w₃, hloop, hrest⟩ := gives_bind.1 h
  rw [← tree_of_forIn (fun p _ w u w' hprint => tree_of_print hprint) hloop]
  rcases hreports : settings.reports with _ | _
  · simp only [hreports] at hrest
    obtain ⟨hstatus, hsaves⟩ := hsave hrest
    exact ⟨hstatus, _, .nothing _, hsaves⟩
  · simp only [hreports] at hrest
    obtain ⟨⟨⟩, w₄, hfiles, hrest⟩ := gives_bind.1 hrest
    obtain ⟨hstatus, hsaves⟩ := hsave hrest
    exact ⟨hstatus, _, writes_of_writeFiles hfiles, hsaves⟩

/-! ## How the second half ends -/

section Conclude

variable {shown : Print → Prop}

/-- Writing the report files ends as the writing does. -/
theorem ends_writeFiles {folder : Path} {outcome : Except ReportFiles.Fault (List Path)}
    (hfolder : settings.reportPath s.environment = .ok folder)
    (hwrite : ReportFiles.write s.screen.page s.here folder true true r w.tree = (t, outcome))
    (hwritten : ∀ p, shown (.line (writtenLine p))) :
    Ends s shown (writeFiles s settings r) w
      ((outcome.mapError CommandFault.reportFiles).map fun _ => ()) t := by
  refine (Ends.of_gives (gives_of_ok hfolder)).bind fun w₁ h₁ => ?_
  rw [← h₁] at hwrite
  rcases outcome with f | paths
  · have hchange : Ends s shown (change CommandFault.reportFiles
        (ReportFiles.write s.screen.page s.here folder true true r)) w₁ (.error (.reportFiles f)) t :=
      .of_fails (fails_change hwrite)
    exact hchange.bind_error
  · have hchange : Ends s shown (change CommandFault.reportFiles
        (ReportFiles.write s.screen.page s.here folder true true r)) w₁ (.ok paths) t :=
      .of_gives (gives_change hwrite)
    refine hchange.bind fun w₂ h₂ => ?_
    refine (ends_forIn (fun p _ w => ends_line (hwritten p) w) w₂).bind fun w₃ h₃ => ?_
    rw [← h₂, ← h₃]
    exact ends_pure

variable {prints : List Print} (hprints : Console.report c.verbose r = .ok prints)
  (hreport : ∀ p ∈ prints, shown p)

include hprints hreport

/-- What is shown of a report comes first. -/
theorem ends_conclude_of_prints {outcome : Except CommandFault ℕ}
    (hrest : ∀ w₁, w₁.tree = w.tree → Ends s shown (do
      if settings.reports then writeFiles s settings r
      if c.record then save s (historyFile settings) r
      line s (closingLine r)
      return r.exitCode) w₁ outcome t) :
    Ends s shown (conclude s c settings r) w outcome t := by
  refine (Ends.of_gives (gives_of_ok hprints)).bind fun w₁ h₁ => ?_
  rw [← h₁] at hrest
  exact (ends_forIn (fun p hp w => ends_print (hreport p hp) w) w₁).bind hrest

/-- The second half of a check that saves nothing and can write its report files, if they are wanted, ends
in the status for its report. -/
theorem ends_conclude (hrecord : c.record = false)
    (hwrites : Writes s settings r settings.reports w.tree t)
    (hwritten : settings.reports = true → ∀ p, shown (.line (writtenLine p)))
    (hclosing : shown (.line (closingLine r))) :
    Ends s shown (conclude s c settings r) w (.ok r.exitCode) t := by
  refine ends_conclude_of_prints hprints hreport fun w₁ h₁ => ?_
  rw [← h₁] at hwrites
  have hclose : ∀ w, Ends s shown (do
      line s (closingLine r)
      return r.exitCode) w (.ok r.exitCode) w.tree := fun w =>
    (ends_line hclosing w).bind fun w' h => h ▸ ends_pure
  simp only [hrecord, Bool.false_eq_true, if_false]
  rcases hreports : settings.reports with _ | _
  · rw [hreports] at hwrites
    cases hwrites
    exact hclose w₁
  · rw [hreports] at hwrites
    obtain _ | ⟨hfolder, hwrite⟩ := hwrites
    exact (ends_writeFiles hfolder hwrite (hwritten hreports)).bind fun w₂ h₂ => h₂ ▸ hclose w₂

end Conclude

end InsecureLinks.CommandLine.Check
