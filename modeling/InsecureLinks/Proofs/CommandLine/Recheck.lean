import Mathlib
import InsecureLinks.Proofs.CommandLine.Check
import InsecureLinks.Proofs.Output.ReportFiles
import InsecureLinks.Proofs.Scan.Magnitude
import InsecureLinks.Proofs.Store.Growth
import InsecureLinks.Digest.Sha256
import InsecureLinks.Yaml.Document

/-!
# Checking again

A check writes files, and a second check of the same project may read them.  If it does not, it reports
the same violations (`violations_of_undisturbed`).

Nothing keeps a check from reading what the one before it has written.  The patterns that are always
excluded keep it away from the build folder, and there the report folder is unless it is named; but the
report folder does not move with the build folder (`violations_of_movedBuild`).
-/

namespace InsecureLinks

/-- A settings file in which nothing but a build folder is given changes nothing but the build
folder. -/
theorem Settings.applyEntries_buildDir (s : Settings) {path v : Text} {entries : Entries}
    (hbuild : Value.get? "build_dir" entries = some (.text v))
    (hother : ∀ key ≠ "build_dir", Value.get? key entries = none) :
    s.applyEntries path entries = .ok { s with buildDir := v } := by
  have htexts : ∀ key ≠ "build_dir", textsAt path key entries = .ok [] := fun key hkey => by
    rw [textsAt, hother key hkey]
  have htext : ∀ key ≠ "build_dir", textAt path key entries = .ok none := fun key hkey => by
    rw [textAt, hother key hkey]
  have hnumber : ∀ {α : Type} (read : Value → Except NumberFault α), ∀ key ≠ "build_dir",
      numberAt read path key entries = .ok none := fun read key hkey => by
    rw [numberAt, hother key hkey]
  rw [applyEntries, htexts _ (by simp), htexts _ (by simp), htexts _ (by simp), htext _ (by simp),
    textAt, hbuild, htext _ (by simp), truthAt, hother _ (by simp), hnumber _ _ (by simp),
    hnumber _ _ (by simp), sizeAt, hother _ (by simp)]
  change Except.ok { s with
    roots := s.roots ++ [], included := s.included ++ [], excluded := s.excluded ++ [], buildDir := v } = _
  simp only [List.append_nil]

namespace CommandLine.Check

open FileTree Command

variable {s : Surroundings} {c : Choices} {project : Text} {settings : Settings} {r : Report}
  {w w₁ w₂ : Workspace} {t t' : FileTree}

/-! ## Two checks in a row -/

/-- Whether a check is carried out to its end, with some settings and a report. -/
def Completes (s : Surroundings) (c : Choices) (project : Text) (w : Workspace)
    (settings : Settings) (r : Report) (w' : Workspace) : Prop :=
  ∃ w₁, Gives (inspect s c project) w (settings, r) w₁ ∧
    Gives (conclude s c settings r) w₁ r.exitCode w'

/-- A check that is set up, neither takes nor saves a report, scans to the end, can write its report files
and shows everything is carried out to its end. -/
theorem exists_completes {p : Command.Plan} {prints : List Print}
    (hset : SetsUp s c project w.tree settings p) (hcache : c.cache = false) (hrecord : c.record = false)
    (hrun : Scan.run w.tree s.here p.target p.whitelist p.options s.clock s.now = .ok r)
    (hwrites : Writes s settings r settings.reports w.tree t)
    (hprints : Console.report c.verbose r = .ok prints) (hscreen : ∀ p, s.screen.refusal? p = none) :
    ∃ w', Completes s c project w settings r w' ∧ w'.tree = t := by
  have hends : Ends s (fun _ => True) (inspect s c project) w (.ok (settings, r)) w.tree :=
    ends_inspect hset hcache hrun trivial
  obtain ⟨w₁, hinspect, htree⟩ := hends.exists_run hscreen
  rw [← htree] at hwrites
  have hends' : Ends s (fun _ => True) (conclude s c settings r) w₁ (.ok r.exitCode) t :=
    ends_conclude hprints (fun _ _ => trivial) hrecord hwrites (fun _ _ => trivial) trivial
  obtain ⟨w₂, hconclude, htree₂⟩ := hends'.exists_run hscreen
  exact ⟨w₂, ⟨w₁, hinspect, hconclude⟩, htree₂⟩

/-- The places of the report files of a check, if it writes them. -/
def reportPlaces (s : Surroundings) (settings : Settings) (t : FileTree) : Set Place :=
  {q | settings.reports = true ∧ ∃ folder, settings.reportPath s.environment = .ok folder ∧
    q ∈ ReportFiles.places t s.here folder}

/-- The place of the history file of a check, if it is there. -/
def historyPlaces (s : Surroundings) (settings : Settings) (t : FileTree) : Set Place :=
  t.ends s.here (historyFile settings)

/-- Whether what a check has written into a tree does not matter to a check of the same project.  The
same is read to set the scan up, what dangling links lead to now, if anywhere, is new, and the scan
comes to no report file.  If reports are kept, it does not come to the history file either, and that
is not one of the report files. -/
structure Undisturbed (s : Surroundings) (c : Choices) (project : Text) (settings : Settings)
    (t t' : FileTree) : Prop where
  load : Settings.load s.yaml s.environment t' s.here project c.settingsFile =
    Settings.load s.yaml s.environment t s.here project c.settingsFile
  whitelistPath : settings.whitelistPath s.environment t' s.here =
    settings.whitelistPath s.environment t s.here
  whitelist : ∀ path, settings.whitelistPath s.environment t s.here = .ok path →
    Whitelist.load t' s.here (path.map Path.text) = Whitelist.load t s.here (path.map Path.text)
  steady : Walk.Steady t t'
  reports : ∀ target, settings.target s.environment = .ok target → ∀ f q,
    Scan.ComesTo t' s.here target f q → q ∉ reportPlaces s settings t'
  history : c.cache = true → ∀ target, settings.target s.environment = .ok target → ∀ f q,
    Scan.ComesTo t' s.here target f q → q ∉ historyPlaces s settings t'
  apart : c.cache = true → ∀ q ∈ historyPlaces s settings t', q ∉ reportPlaces s settings t'

section Growth

theorem reportPlaces_subset (h : Grows t t') :
    reportPlaces s settings t ⊆ reportPlaces s settings t' :=
  fun _ ⟨hreports, folder, hfolder, hq⟩ =>
    ⟨hreports, folder, hfolder, ReportFiles.places_subset h hq⟩

variable (ht : t.IsRooted) (hhere : t.node? s.here = some .folder)

include ht hhere

theorem Scans.growsAt {p : Plan} {cache : Bool} (h : Scans s settings p t cache r t') :
    GrowsAt (historyPlaces s settings t') t t' := by
  cases h with
  | reuse h => exact Store.CachedScan.run_growsAt ht hhere h
  | fresh => exact .refl _ t

theorem Writes.growsAt (h : Writes s settings r settings.reports t t') :
    GrowsAt (reportPlaces s settings t') t t' := by
  generalize hreports : settings.reports = reports at h
  cases h with
  | nothing => exact .refl _ t
  | files hfolder h =>
    exact (ReportFiles.write_growsAt ht hhere h).mono fun q hq => ⟨hreports, _, hfolder, hq⟩

theorem Saves.growsAt {record : Bool} (h : Saves s settings r record t t') :
    GrowsAt (historyPlaces s settings t') t t' := by
  cases h with
  | nothing => exact .refl _ t
  | scan h => exact Store.withFile_growsAt ht hhere h

end Growth

/-- The same is set up if the same is read. -/
theorem SetsUp.eq {settings' : Settings} {p p' : Plan} (hsame : Undisturbed s c project settings t t')
    (h : SetsUp s c project t settings p) (h' : SetsUp s c project t' settings' p') :
    settings' = settings ∧ p' = p := by
  obtain ⟨loaded, hload, rfl⟩ := h.load
  obtain ⟨loaded', hload', rfl⟩ := h'.load
  obtain rfl : loaded' = loaded := by
    rw [hsame.load, hload] at hload'
    exact (Except.ok.inj hload').symm
  obtain ⟨path, hpath, hwhitelist⟩ := h.whitelist
  obtain ⟨path', hpath', hwhitelist'⟩ := h'.whitelist
  refine ⟨rfl, ?_⟩
  rw [hsame.whitelistPath, hpath] at hpath'
  cases hpath'
  rw [hsame.whitelist path hpath, hwhitelist] at hwhitelist'
  have htarget : p'.target = p.target := Except.ok.inj (h'.target.symm.trans h.target)
  have hwhitelist : p'.whitelist = p.whitelist := (Except.ok.inj hwhitelist').symm
  have hoptions : p'.options = p.options := h'.options.trans h.options.symm
  calc p' = ⟨p'.target, p'.whitelist, p'.options⟩ := rfl
    _ = p := by rw [htarget, hwhitelist, hoptions]

section Again

variable {t₁ t₂ t'' : FileTree} {p : Plan} {r' : Report} {s' : Surroundings}
  (hrooted : t.IsRooted) (hhere : t.node? s.here = some .folder)
  (htarget : settings.target s.environment = .ok p.target)
  (hwrites : Writes s settings r settings.reports t₁ t₂) (hsaves : Saves s settings r c.record t₂ t')
  (hundisturbed : Undisturbed s c project settings t t')

include hrooted hhere htarget hwrites hsaves hundisturbed

/-- A scan that does not reuse a report finds the same violations again.  It may come to the history
file, but finds nothing there. -/
theorem violations_of_fresh {clock clock' : Clock} {now now' : Binary64} (ht₁ : t₁ = t)
    (hrun : Scan.run t s.here p.target p.whitelist p.options clock now = .ok r)
    (hrun' : Scan.run t' s.here p.target p.whitelist p.options clock' now' = .ok r') :
    r'.violations = r.violations := by
  subst ht₁
  have hwritten := hwrites.growsAt hrooted hhere
  have hunreported := hundisturbed.reports _ htarget
  generalize hrecord : c.record = record at hsaves
  cases hsaves with
  | nothing =>
    exact Scan.violations_of_growsAt hrooted hwritten hundisturbed.steady
      (fun f q hcomes hq => absurd hq (hunreported f q hcomes)) hrun hrun'
  | scan hsave =>
    have hrooted₂ := hwritten.grows.isRooted hrooted
    have hhere₂ := hwritten.grows.keeps.folder _ hhere
    have hsaved := Store.withFile_growsAt hrooted₂ hhere₂ hsave
    have hreports : reportPlaces s settings t₂ ⊆ reportPlaces s settings t' :=
      reportPlaces_subset hsaved.grows
    have hgrows : GrowsAt (reportPlaces s settings t' ∪ historyPlaces s settings t') t₁ t' :=
      (hwritten.mono (hreports.trans Set.subset_union_left)).trans
        (hsaved.mono Set.subset_union_right)
    refine Scan.violations_of_growsAt hrooted hgrows hundisturbed.steady ?_ hrun hrun'
    intro f q hcomes hq content hcontent
    have hreport := hunreported f q hcomes
    have hhistory := hq.resolve_left hreport
    obtain ⟨tables, htables⟩ : ∃ tables, Store.tablesOf content = .ok tables := by
      refine Store.tablesOf_of_withFile hrooted₂ hhere₂ hsave hhistory ?_
      exact hcontent.imp_left (hwritten.node?_eq fun hmem => hreport (hreports hmem))
    exact Store.isClear_of_tablesOf htables

/-- A scan with reuse gives the same report again. -/
theorem report_of_reuse {clock clock' : Clock} {now now' : Binary64}
    {hit hit' : Bool} (hcache : c.cache = true)
    (hrun : Store.CachedScan.run s.hash s.here
      ⟨p.target, p.whitelist, p.options, historyFile settings⟩ clock now t = (t₁, .ok (r, hit)))
    (hrun' : Store.CachedScan.run s.hash s.here
      ⟨p.target, p.whitelist, p.options, historyFile settings⟩ clock' now' t' =
        (t'', .ok (r', hit'))) : r' = r := by
  have hscanned := Store.CachedScan.run_growsAt hrooted hhere hrun
  have hrooted₁ := hscanned.grows.isRooted hrooted
  have hhere₁ := hscanned.grows.keeps.folder _ hhere
  have hwritten := hwrites.growsAt hrooted₁ hhere₁
  have hrooted₂ := hwritten.grows.isRooted hrooted₁
  have hhere₂ := hwritten.grows.keeps.folder _ hhere₁
  have hsaved := hsaves.growsAt hrooted₂ hhere₂
  have hreports : reportPlaces s settings t₂ ⊆ reportPlaces s settings t' :=
    reportPlaces_subset hsaved.grows
  have hhistory : historyPlaces s settings t₁ ⊆ historyPlaces s settings t' :=
    (hwritten.grows.trans hsaved.grows).ends_subset
  have hgrows : GrowsAt (reportPlaces s settings t' ∪ historyPlaces s settings t') t t' :=
    ((hscanned.mono (hhistory.trans Set.subset_union_right)).trans
      (hwritten.mono (hreports.trans Set.subset_union_left))).trans
      (hsaved.mono Set.subset_union_right)
  refine Store.CachedScan.run_again hrooted hrun hrun' hgrows hundisturbed.steady ?_ ?_
  · rintro f q hcomes (hq | hq)
    · exact hundisturbed.reports _ htarget f q hcomes hq
    · exact hundisturbed.history hcache _ htarget f q hcomes hq
  · intro key d hholds
    have hholds₂ : Store.Holds s.here (historyFile settings) key d t₂ :=
      hholds.of_growsAt hwritten fun q hq hmem =>
        hundisturbed.apart hcache q (hsaved.grows.ends_subset hq) (hreports hmem)
    generalize hrecord : c.record = record at hsaves
    cases hsaves with
    | nothing => exact hholds₂
    | scan hsave => exact hholds₂.of_save hsave

end Again

/-- A check that is carried out after another, with nothing done in between, goes by the same settings
and reports the same violations, if what the first has written does not matter to it. -/
theorem violations_of_undisturbed {clock : Clock} {now : Binary64} {newId : ℕ → Text}
    {w' w'' : Workspace} {settings' : Settings} {r' : Report} (hsound : w.tree.IsSound)
    (hhere : w.tree.node? s.here = some .folder)
    (hfirst : Completes s c project w settings r w₁) (hbetween : w'.tree = w₁.tree)
    (hsecond : Completes { s with clock, now, newId } c project w' settings' r' w'')
    (hundisturbed : Undisturbed s c project settings w.tree w'.tree) :
    settings' = settings ∧ r'.violations = r.violations := by
  obtain ⟨w₂, hinspect, hconclude⟩ := hfirst
  obtain ⟨w₃, hinspect', -⟩ := hsecond
  obtain ⟨p, hset, hscans⟩ := scans_of_inspect hinspect
  obtain ⟨p', hset', hscans'⟩ := scans_of_inspect hinspect'
  obtain ⟨-, t, hwrites, hsaves⟩ := writes_of_conclude hconclude
  rw [← hbetween] at hsaves
  obtain ⟨rfl, rfl⟩ := hset.eq hundisturbed ⟨hset'.load, hset'.whitelist, hset'.target, hset'.options⟩
  refine ⟨rfl, ?_⟩
  generalize w₂.tree = t₁ at hscans hwrites
  generalize w₃.tree = t₂ at hscans'
  generalize hcache : c.cache = cache at hscans hscans'
  cases hscans with
  | reuse hrun =>
    cases hscans' with
    | reuse hrun' =>
      rw [report_of_reuse hsound.isRooted hhere hset.target hwrites hsaves hundisturbed hcache hrun
        hrun']
  | fresh hrun =>
    cases hscans' with
    | fresh hrun' =>
      exact violations_of_fresh hsound.isRooted hhere hset.target hwrites hsaves hundisturbed rfl hrun
        hrun'

/-! ## A small project -/

/-- At the top of a tree, with a home folder. -/
def surroundings : Surroundings :=
  ⟨⟨[("HOME".toList, "/h".toList)], [], []⟩, [], Yaml.read, .plain, 4, .stepping .zero, .zero,
    Sha256.hex, Text.natural⟩

/-- A settings file that moves the build folder. -/
def movingText : Text := "build_dir: out".toList

/-- The folder for data. -/
def dataFolder : Path := ⟨.top, ["h".toList, ".local".toList, "share".toList, "nohttp".toList]⟩

/-- The settings of the project `p`, whose build folder may have been moved. -/
def settingsOf (moved : Bool) : Settings :=
  { Settings.defaults ⟨.top, ["p".toList]⟩ dataFolder with
    buildDir := if moved then "out".toList else defaultBuildDir }

/-- The names from the project to the folder of its report. -/
def reportNames : List Text := ["build".toList, "reports".toList, "checkstyleNohttp".toList]

/-- The folder of the report of the project. -/
def reportFolder : Path := ⟨.top, "p".toList :: reportNames⟩

/-- The files of a report in the project, and the folders they are in. -/
def reportNodes (document : Text) : List (Place × Node) :=
  [("p".toList :: reportNames.take 1, .folder), ("p".toList :: reportNames.take 2, .folder),
    ("p".toList :: reportNames, .folder),
    ("p".toList :: reportNames ++ ["nohttp.xml".toList], .file (.bytes (Utf8.encode document))),
    ("p".toList :: reportNames ++ ["nohttp.html".toList], .file (.bytes []))]

/-- The project `p` with a file `a` that holds one link.  There may be a settings file that moves the
build folder, and a report. -/
def small (moved : Bool) (document? : Option Text) : FileTree where
  nodes := (["p".toList], .folder) ::
    (["p".toList, "a".toList], .file (.bytes (Utf8.encode insecure))) ::
    ((if moved then [(["p".toList, Settings.fileName], .file (.bytes (Utf8.encode movingText)))]
      else []) ++
      match document? with
      | some document => reportNodes document
      | none => [])
  unlistable := []
  unreadable := []

/-- The scan of the project. -/
def planOf (moved : Bool) : Command.Plan :=
  ⟨⟨["/p".toList], [], [], (settingsOf moved).buildDir⟩, .empty,
    ⟨none, SourceText.defaultMaxFileSize, none, 4⟩⟩

/-- What the scan of the project ends with. -/
def scanOf (moved : Bool) (document? : Option Text) : Except ScanFault Report :=
  Scan.run (small moved document?) [] (planOf moved).target (planOf moved).whitelist
    (planOf moved).options surroundings.clock surroundings.now

theorem applyVariables_settingsOf (moved : Bool) :
    (settingsOf moved).applyVariables surroundings.environment = .ok (settingsOf moved) := by
  cases moved with
  | false => exact rfl
  | true => exact rfl

/-- The entry of a document that is a map of one text to one text. -/
def onlyEntry? : Except Yaml.Fault Value → Option (Text × Text)
  | .ok (.map [(.text k, .text v)]) => some (k, v)
  | _ => none

theorem read_movingText :
    Yaml.read movingText = .ok (.map [(.text "build_dir".toList, .text "out".toList)]) := by
  have h : onlyEntry? (Yaml.read movingText) = some ("build_dir".toList, "out".toList) := by
    decide +kernel
  unfold onlyEntry? at h
  split at h
  · next k v hread =>
    cases h
    exact hread
  · cases h

theorem applyFile_small (document? : Option Text) :
    (settingsOf false).applyFile Yaml.read (small true document?) []
      ⟨.top, ["p".toList, Settings.fileName]⟩ = .ok (settingsOf true) := by
  have hread : (small true document?).read [] ⟨.top, ["p".toList, Settings.fileName]⟩ =
      .ok (Utf8.encode movingText) := by
    cases document? <;> cbv
  have hentries : Settings.readEntries Yaml.read (Path.mk .top ["p".toList, Settings.fileName]).text
      (Utf8.encode movingText) = .ok [(.text "build_dir".toList, .text "out".toList)] := by
    have hbreaks : Text.unifyBreaks movingText = movingText := rfl
    rw [Settings.readEntries, Utf8.decode_encode]
    dsimp only
    rw [hbreaks, read_movingText]
  have hother : ∀ key ≠ "build_dir",
      Value.get? key [(.text "build_dir".toList, .text "out".toList)] = none := by
    intro key hkey
    rw [Value.get?, if_neg fun h => hkey (String.toList_inj.1 h.symm)]
    rfl
  rw [Settings.applyFile, hread, if_neg (by decide)]
  refine bind_eq_ok.2 ⟨_, hentries, Settings.applyEntries_buildDir _ ?_ hother⟩
  rw [Value.get?, if_pos rfl]
  rfl

/-- What is looked up to set the check of the project up. -/
theorem lookups_small (moved : Bool) (document? : Option Text) :
    Settings.realProject (small moved document?) [] "p".toList = .ok ⟨.top, ["p".toList]⟩ ∧
      (settingsOf false).filePath (small moved document?) [] none =
        .ok (if moved then some ⟨.top, ["p".toList, Settings.fileName]⟩ else none) ∧
      (settingsOf moved).whitelistPath surroundings.environment (small moved document?) [] =
        .ok none ∧
      (small moved document?).reach [] (Path.ofText "/p".toList).text =
        .ok (["p".toList], .folder) := by
  cases moved <;> cases document? <;> exact ⟨by cbv, by cbv, by cbv, by cbv⟩

theorem load_small (moved : Bool) (document? : Option Text) :
    Settings.load Yaml.read surroundings.environment (small moved document?) [] "p".toList none =
      .ok (settingsOf moved) := by
  obtain ⟨hproject, hfile, -⟩ := lookups_small moved document?
  have hdata : Settings.defaultDataDir surroundings.environment = .ok dataFolder := rfl
  refine bind_eq_ok.2 ⟨_, hproject, bind_eq_ok.2 ⟨_, hdata, bind_eq_ok.2 ⟨_, hfile, ?_⟩⟩⟩
  cases moved with
  | false => exact applyVariables_settingsOf false
  | true => exact bind_eq_ok.2 ⟨_, applyFile_small document?, applyVariables_settingsOf true⟩

theorem target_settingsOf (moved : Bool) :
    (settingsOf moved).target surroundings.environment = .ok (planOf moved).target := by
  cases moved with
  | false => exact rfl
  | true => exact rfl

theorem whitelistPath_small (moved : Bool) (document? : Option Text) :
    (settingsOf moved).whitelistPath surroundings.environment (small moved document?) [] =
      .ok none := (lookups_small moved document?).2.2.1

theorem reportPath_settingsOf (moved : Bool) :
    (settingsOf moved).reportPath surroundings.environment = .ok reportFolder := by
  cases moved with
  | false => exact rfl
  | true => exact rfl

theorem reach_small (moved : Bool) (document? : Option Text) :
    (small moved document?).reach [] (Path.ofText "/p".toList).text = .ok (["p".toList], .folder) :=
  (lookups_small moved document?).2.2.2

theorem setsUp_small (moved : Bool) (document? : Option Text) :
    SetsUp surroundings .initial "p".toList (small moved document?) (settingsOf moved)
      (planOf moved) where
  load := ⟨_, load_small moved document?, by cases moved <;> rfl⟩
  whitelist := ⟨none, whitelistPath_small moved document?, rfl⟩
  target := target_settingsOf moved
  options := rfl

/-- The project once the folder for its report has been made and some files are in it. -/
def withFiles (moved : Bool) (files : List (Text × Utf8.Bytes)) : FileTree :=
  { small moved none with
    nodes := (small moved none).nodes ++ (reportNodes []).take 3 ++
      files.map fun f => ("p".toList :: reportNames ++ [f.1], .file (.bytes f.2)) }

/-- The report folder of the project can be made, and any document and page can be written into it. -/
theorem writes_new (moved : Bool) (document page : Utf8.Bytes) :
    (small moved none).ensureFolders [] reportFolder.start reportFolder.names.length
        reportFolder.names = .ok (withFiles moved []) ∧
      (withFiles moved []).write [] (reportFolder.join (ReportFiles.baseName ++ ".xml".toList))
        document = .ok (withFiles moved [("nohttp.xml".toList, document)]) ∧
      (withFiles moved [("nohttp.xml".toList, document)]).write []
        (reportFolder.join (ReportFiles.baseName ++ ".html".toList)) page =
          .ok (withFiles moved [("nohttp.xml".toList, document), ("nohttp.html".toList, page)]) := by
  cases moved <;> exact ⟨by cbv, by cbv, by cbv⟩

/-- The project after each step of writing a report in it: the folders, the document, and the page. -/
theorem writes_small (moved : Bool) (document? : Option Text) (document : Text) : ∃ made tree₁,
    (small moved document?).ensureFolders [] reportFolder.start reportFolder.names.length
        reportFolder.names = .ok made ∧
      made.write [] (reportFolder.join (ReportFiles.baseName ++ ".xml".toList)) (Utf8.encode document) =
        .ok tree₁ ∧
      tree₁.write [] (reportFolder.join (ReportFiles.baseName ++ ".html".toList)) (Utf8.encode []) =
        .ok (small moved (some document)) := by
  cases document? with
  | none =>
    have hsmall : small moved (some document) = withFiles moved
        [("nohttp.xml".toList, Utf8.encode document), ("nohttp.html".toList, Utf8.encode [])] := by
      cases moved <;> rfl
    rw [hsmall]
    exact ⟨_, _, writes_new moved (Utf8.encode document) (Utf8.encode [])⟩
  | some old =>
    refine ⟨small moved (some old), small moved (some document), ?_, ?_, ?_⟩
    · cases moved <;> cbv
    · cases moved <;> cbv
    · cases moved <;> cbv

theorem write_small (moved : Bool) (document? : Option Text) {document : Text}
    (hdocument : Checkstyle.document r = .ok document)
    (hpage : ReportFiles.page surroundings.screen.page r = .ok []) :
    ∃ paths, ReportFiles.write surroundings.screen.page [] reportFolder true true r
      (small moved document?) = (small moved (some document), .ok paths) := by
  obtain ⟨made, tree₁, hmade, hfirst, hsecond⟩ := writes_small moved document? document
  exact ⟨_, ReportFiles.write_of_page (by decide) hmade hdocument hfirst hpage hsecond⟩

/-- A file of the project. -/
def fileOf (path : Text) : SourceFile := ⟨"/p".toList, path⟩

/-- The path of the document in the project. -/
def documentPath : Text := "build/reports/checkstyleNohttp/nohttp.xml".toList

/-- The files that a scan of the project finds: where the build folder has been moved, the settings file
and the report are among them. -/
def foundIn (moved hasReport : Bool) : List SourceFile :=
  (if moved then [fileOf Settings.fileName] else []) ++ fileOf "a".toList ::
    if moved && hasReport then
      [fileOf "build/reports/checkstyleNohttp/nohttp.html".toList, fileOf documentPath]
    else []

theorem find_small (moved : Bool) (document? : Option Text) :
    Scan.find (small moved document?) [] (planOf moved).target =
      .ok (foundIn moved document?.isSome, []) := by
  cases moved <;> cases document? <;> cbv

/-- What a scan of the project reports is shown, and it has a document. -/
theorem prints_of_scanOf {moved : Bool} {document? : Option Text} (h : scanOf moved document? = .ok r) :
    (∃ prints, Console.report false r = .ok prints) ∧
      (∃ document, Checkstyle.document r = .ok document) ∧
      ReportFiles.page surroundings.screen.page r = .ok [] := by
  have hviolations := Scan.isShort_of_run h
  have hshort : r.IsShort := by
    refine Scan.isShort_of_found (find_small moved document?) ?_ (List.forall_mem_nil _) h
    cases moved <;> cases document? <;> simp [foundIn]
  obtain ⟨x, hduration⟩ := Scan.exists_duration_of_run h
  obtain ⟨prints, hprints⟩ := Console.prints_of_isShort hviolations hshort hduration
  refine ⟨Console.report_of_isShort hviolations hshort hduration false,
    Checkstyle.document_of_isShort hviolations, ?_⟩
  rw [ReportFiles.page, hprints]
  rfl

theorem exists_scanOf (moved : Bool) (document? : Option Text) : ∃ r, scanOf moved document? = .ok r := by
  have hlow : (-2 : ℤ) ≤ SourceText.defaultMaxFileSize := by decide
  have hhigh : SourceText.defaultMaxFileSize < 2 ^ 63 - 34 := by decide
  exact Scan.exists_report_of_find (find_small moved document?) (Scan.not_timedOut_of_none rfl _ _) hlow
    hhigh

/-- A check of the project is carried out to its end and leaves its report. -/
theorem exists_completes_small (moved : Bool) (document? : Option Text)
    (hw : w.tree = small moved document?) :
    ∃ r w' document, Completes surroundings .initial "p".toList w (settingsOf moved) r w' ∧
      scanOf moved document? = .ok r ∧ Checkstyle.document r = .ok document ∧
      w'.tree = small moved (some document) := by
  obtain ⟨r, hrun⟩ := exists_scanOf moved document?
  obtain ⟨⟨prints, hprints⟩, ⟨document, hdocument⟩, hpage⟩ := prints_of_scanOf hrun
  obtain ⟨paths, hwrite⟩ := write_small moved document? hdocument hpage
  have hset := setsUp_small moved document?
  rw [← hw] at hset hwrite
  have hrun' : Scan.run w.tree [] (planOf moved).target (planOf moved).whitelist
      (planOf moved).options surroundings.clock surroundings.now = .ok r := by
    rw [hw]
    exact hrun
  obtain ⟨w', hcompletes, htree⟩ := exists_completes hset rfl rfl hrun'
    (.files (reportPath_settingsOf moved) hwrite) hprints fun _ => rfl
  exact ⟨r, w', document, hcompletes, hrun, hdocument, htree⟩

theorem isSound_small : (small false none).IsSound where
  nodup := by decide
  parent := by
    intro p hp
    simp only [small, Bool.false_eq_true, if_false, List.nil_append, List.mem_cons, List.not_mem_nil,
      or_false] at hp
    rcases hp with rfl | rfl
    · exact ⟨[], _, rfl, isName_singleton (by decide) (by decide), rfl⟩
    · exact ⟨["p".toList], _, rfl, isName_singleton (by decide) (by decide), rfl⟩

theorem isLinkFree_small (document? : Option Text) : (small false document?).IsLinkFree := by
  refine isLinkFree_of_nodes fun p hp target => ?_
  cases document? with
  | none =>
    simp only [small, Bool.false_eq_true, if_false, List.nil_append, List.mem_cons, List.not_mem_nil,
      or_false] at hp
    rcases hp with rfl | rfl <;> simp
  | some document =>
    simp only [small, reportNodes, Bool.false_eq_true, if_false, List.nil_append, List.mem_cons,
      List.not_mem_nil, or_false] at hp
    rcases hp with rfl | rfl | rfl | rfl | rfl | rfl | rfl <;> simp

/-- Where the build folder has not been moved, the scan does not come to the report. -/
theorem not_comesTo_report (document : Text) (hrooted : (small false (some document)).IsRooted)
    {f : SourceFile} {q : Place}
    (hcomes : Scan.ComesTo (small false (some document)) [] (planOf false).target f q) :
    q ∉ ReportFiles.places (small false (some document)) [] reportFolder := by
  rintro ⟨n, hn, content, hreach⟩
  have hlinks := isLinkFree_small (some document)
  obtain @⟨root, start, names, trail, p, c, hr, hroot, hleads, hfile, hselects⟩ := hcomes
  obtain rfl := List.mem_singleton.1 hr
  cases (reach_small false (some document)).symm.trans hroot
  have hstart := hleads.place_eq hrooted hlinks
  simp only [ReportFiles.names, List.mem_cons, List.not_mem_nil, or_false] at hn
  obtain ⟨hnormal, hroute, hexcluded⟩ : (reportFolder.join n).IsNormal ∧
      routeOf [] (reportFolder.join n) = ["p".toList] ++ (reportNames ++ [n]) ∧
      Walk.selects (Walk.planOf (small false (some document)) [] [] (planOf false).target.effectiveExcludes
        [] "/p".toList) (Walk.relative (reportNames ++ [n])) = .ok false := by
    unfold Path.IsNormal
    rcases hn with rfl | rfl
    · exact ⟨by decide, by decide, by cbv⟩
    · exact ⟨by decide, by decide, by cbv⟩
  have hplace := (hlinks.place_of_reach hnormal hreach).1
  obtain rfl := List.append_cancel_left (hstart.symm.trans (hplace.trans hroute))
  cases hselects.symm.trans hexcluded

theorem undisturbed_small {document : Text} (h : scanOf false none = .ok r)
    (hdocument : Checkstyle.document r = .ok document) :
    Undisturbed surroundings .initial "p".toList (settingsOf false) (small false none)
      (small false (some document)) where
  load := (load_small false _).trans (load_small false none).symm
  whitelistPath := (whitelistPath_small false _).trans (whitelistPath_small false none).symm
  whitelist path hpath := by
    cases (whitelistPath_small false none).symm.trans hpath
    rfl
  steady place name hname hnone := by
    obtain ⟨y, hy⟩ := mem_names.1 hname
    cases (Walk.behind_of_node? isSound_small (isLinkFree_small none) hy).symm.trans hnone
  reports target htarget f q hcomes := by
    rintro ⟨-, folder, hfolder, hq⟩
    obtain ⟨paths, hwrite⟩ := write_small false none hdocument (prints_of_scanOf h).2.2
    have hrooted := (ReportFiles.write_growsAt isSound_small.isRooted rfl hwrite).grows.isRooted
      isSound_small.isRooted
    cases (target_settingsOf false).symm.trans htarget
    cases (reportPath_settingsOf false).symm.trans hfolder
    exact not_comesTo_report _ hrooted hcomes hq
  history hcache := by cases hcache
  apart hcache := by cases hcache

/-- The project is checked twice, and the second check does not come to the report of the first. -/
theorem violations_of_undisturbed_small :
    ∃ w₁ w₂ r r', Completes surroundings .initial "p".toList ⟨small false none, 0, []⟩
        (settingsOf false) r w₁ ∧
      Completes surroundings .initial "p".toList w₁ (settingsOf false) r' w₂ ∧
      r'.violations = r.violations := by
  obtain ⟨r, w₁, document, hfirst, hrun, hdocument, htree⟩ :=
    @exists_completes_small ⟨small false none, 0, []⟩ false none rfl
  obtain ⟨r', w₂, -, hsecond, -⟩ := exists_completes_small false (some document) htree
  have hundisturbed := undisturbed_small hrun hdocument
  rw [← htree] at hundisturbed
  exact ⟨w₁, w₂, r, r', hfirst, hsecond,
    (violations_of_undisturbed isSound_small rfl hfirst rfl hsecond hundisturbed).2⟩

/-! ## A build folder that has been moved -/

/-- The violation in the file `a`. -/
def violation : Violation := ⟨"a".toList, 1, 0, insecure, "/p".toList⟩

theorem violations_of_scanOf (h : scanOf true none = .ok r) : r.violations = [violation] := by
  have hsettings : SourceText.read (small true none) [] SourceText.defaultMaxFileSize
      (fileOf Settings.fileName).path = .ok movingText := by
    cbv
  have ha : SourceText.read (small true none) [] SourceText.defaultMaxFileSize
      (fileOf "a".toList).path = .ok insecure := by
    cbv
  obtain ⟨found, met, hfound, hviolations⟩ := Scan.find_of_run_eq_ok h
  cases (find_small true none).symm.trans hfound
  have hfiles : foundIn true (none : Option Text).isSome =
      [fileOf Settings.fileName, fileOf "a".toList] := rfl
  rw [hviolations, hfiles, List.flatMap_cons, List.flatMap_singleton, planOf,
    Scan.violations_scanFile hsettings, Scan.violations_scanFile ha, SourceFile.violations_empty,
    SourceFile.violations_empty]
  cbv

/-- The document of a report with this violation. -/
def document : Text :=
  Checkstyle.documentOf (Checkstyle.elementOf [Finding.of violation])

theorem document_of_scanOf {t : Text} (h : scanOf true none = .ok r)
    (ht : Checkstyle.document r = .ok t) : t = document := by
  rw [Checkstyle.document_eq_ok ht, violations_of_scanOf h]
  rfl

/-- Where the build folder has been moved, links are found in the document of the report. -/
theorem exists_violation_in_document (h : scanOf true (some document) = .ok r) :
    ∃ v ∈ r.violations, v.filePath = documentPath := by
  have hbytes : (small true (some document)).read [] (fileOf documentPath).path =
      .ok (Utf8.encode document) := by
    generalize document = document
    cbv
  have htext : (SourceText.ofBytes SourceText.defaultMaxFileSize (Utf8.encode document)).toOption =
      some document := by
    decide +kernel
  have hlinks : (Violation.ofText "/p".toList documentPath document).any
      (fun v => v.filePath = documentPath) = true := by
    decide +kernel
  have hread : SourceText.read (small true (some document)) [] SourceText.defaultMaxFileSize
      (fileOf documentPath).path = .ok document := by
    rw [SourceText.read, hbytes]
    dsimp only
    cases hread : SourceText.ofBytes SourceText.defaultMaxFileSize (Utf8.encode document) with
    | ok t =>
      rw [hread] at htext
      rw [Option.some.inj htext]
    | error skip =>
      rw [hread] at htext
      cases htext
  obtain ⟨found, met, hfound, hviolations⟩ := Scan.find_of_run_eq_ok h
  cases (find_small true (some document)).symm.trans hfound
  obtain ⟨v, hv, hpath⟩ := List.any_eq_true.1 hlinks
  refine ⟨v, ?_, of_decide_eq_true hpath⟩
  rw [hviolations]
  refine List.mem_flatMap.2 ⟨fileOf documentPath, by simp [foundIn], ?_⟩
  rw [planOf, Scan.violations_scanFile hread, SourceFile.violations_empty]
  exact hv

/-- The project with a moved build folder is checked twice, and the second check finds links in the
document that the first has written. -/
theorem violations_of_movedBuild :
    ∃ w₁ w₂ r r', Completes surroundings .initial "p".toList ⟨small true none, 0, []⟩
        (settingsOf true) r w₁ ∧
      Completes surroundings .initial "p".toList w₁ (settingsOf true) r' w₂ ∧
      r.violations = [violation] ∧ ∃ v ∈ r'.violations, v.filePath = documentPath := by
  obtain ⟨r, w₁, written, hfirst, hrun, hdocument, htree⟩ :=
    @exists_completes_small ⟨small true none, 0, []⟩ true none rfl
  obtain rfl := document_of_scanOf hrun hdocument
  obtain ⟨r', w₂, -, hsecond, hrun', -⟩ := exists_completes_small true (some document) htree
  exact ⟨w₁, w₂, r, r', hfirst, hsecond, violations_of_scanOf hrun, exists_violation_in_document hrun'⟩

end CommandLine.Check

end InsecureLinks
