import Mathlib
import InsecureLinks.Proofs.Files.Folders
import InsecureLinks.Proofs.Store.Connection

/-!
# The layout of a history file

Opening a history file whose layout is not up to date makes the tables that are missing, records the
version of the layout and keeps every row that was there, and no later opening changes anything
(`openAt_repairs`).  A file that is there needs nothing more to be opened (`finds_of_lookup`).

The tables are made one after another, so an opening that is broken off may leave some of them.  The
next one then brings the file to where one that is not broken off would have brought it
(`openAt_of_brokenOff`).
-/

namespace InsecureLinks.Store

open FileTree

/-! ## Tables -/

namespace Tables

variable {t t' : Tables}

/-- Whether all versions that are recorded are below that of the layout, if any is. -/
def IsBehind (t : Tables) : Prop := ∀ vs, t.versions = some vs → ∀ v ∈ vs, v < layoutVersion

/-- Whether all tables are there, with the rows that there were and one version. -/
structure Repaired (t t' : Tables) : Prop where
  names : t'.names = [cacheName, scansName, violationsName, versionsName]
  versions : t'.versions = some [layoutVersion]
  scans : t'.scans = some (t.scans.getD [])
  violations : t'.violations = some (t.violations.getD ⟨[], 0⟩)
  cache : t'.cache = some (t.cache.getD [])

theorem IsBehind.isOutdated (h : t.IsBehind) : t.isOutdated = true := by
  rw [Tables.isOutdated]
  split
  · rfl
  · rfl
  · next v vs hversions => exact decide_eq_true (h _ hversions v (by simp))

theorem IsBehind.repaired (h : t.IsBehind) : t.Repaired t.migrate := by
  rw [migrate, if_pos h.isOutdated]
  exact ⟨rfl, rfl, rfl, rfl, rfl⟩

theorem isOutdated_migrate (t : Tables) : t.migrate.isOutdated = false := by
  rw [migrate]
  split_ifs with h
  · rfl
  · exact Bool.eq_false_iff.2 h

/-- What is up to date stays as it is. -/
@[simp] theorem migrate_migrate (t : Tables) : t.migrate.migrate = t.migrate := by
  rw [migrate, isOutdated_migrate, if_neg Bool.false_ne_true]

/-! ### One table after another -/

/-- The tables with an empty one under a name, unless one is there. -/
def create (t : Tables) (name : Text) : Tables :=
  if name = versionsName then { t with versions := some (t.versions.getD []) }
  else if name = scansName then { t with scans := some (t.scans.getD []) }
  else if name = violationsName then { t with violations := some (t.violations.getD ⟨[], 0⟩) }
  else if name = cacheName then { t with cache := some (t.cache.getD []) }
  else t

/-- The missing tables are made one after another. -/
theorem complete_eq_foldl (t : Tables) :
    t.complete = [versionsName, scansName, violationsName, cacheName].foldl create t := rfl

theorem complete_create (t : Tables) (name : Text) : (t.create name).complete = t.complete := by
  rw [create]
  split_ifs <;> rfl

theorem changes_create (t : Tables) (name : Text) : (t.create name).changes = t.changes := by
  rw [create]
  split_ifs <;> rfl

theorem IsBehind.create (h : t.IsBehind) (name : Text) : (t.create name).IsBehind := by
  have hempty : ∀ vs, some (t.versions.getD []) = some vs → ∀ v ∈ vs, v < layoutVersion := by
    rintro _ ⟨⟩ v hv
    rcases hversions : t.versions with _ | vs
    · rw [hversions] at hv
      cases hv
    · rw [hversions] at hv
      exact h vs hversions v hv
  rw [Tables.create]
  split_ifs
  · exact hempty
  · exact h
  · exact h
  · exact h
  · exact h

theorem IsBehind.migrate_create (h : t.IsBehind) (name : Text) :
    (t.create name).migrate = t.migrate := by
  rw [migrate, migrate, if_pos h.isOutdated, if_pos (h.create name).isOutdated, complete_create,
    changes_create]

/-- Whichever tables have been made before, the layout is brought up to date as if none had been. -/
theorem IsBehind.migrate_foldl (h : t.IsBehind) (names : List Text) :
    (names.foldl Tables.create t).migrate = t.migrate := by
  induction names generalizing t with
  | nil => rfl
  | cons name names ih => rw [List.foldl_cons, ih (h.create name), h.migrate_create]

end Tables

/-! ## Files -/

variable {tree tree₀ : FileTree} {here place : Place} {p : Path} {t : Tables}

/-- Tables that have been put where others were found are found there. -/
theorem Finds.put (h : Finds here p tree tree₀ place t) (t' : Tables) :
    Finds here p (tree₀.put place (.file (.tables t'))) (tree₀.put place (.file (.tables t')))
      place t' := by
  have hreach := h.reach_put (.tables t')
  have hnode := node?_of_reach hreach
  obtain ⟨q, hparent⟩ := reach_of_ensureFolders h.folders
  have hkeeps := keeps_put h.node?_ne.1 h.node?_ne.2 (.file (.tables t'))
  have hkept := hkeeps.folder q (node?_of_reach hparent)
  constructor
  · exact ensureFolders_of_reach _ (hkeeps.reach_eq_ok hparent hkept (by simp))
  · rw [reach_eq_ok.1 hreach, hnode]
  · rw [hnode]
    rfl

/-- Nothing but the file itself, or where it is to be, is needed for opening it. -/
theorem finds_of_lookup (ht : tree.IsRooted) (hhere : tree.node? here = some .folder)
    (hp : p.IsNormal) {node : Option Node} (hlookup : tree.lookup true here p.text = .ok ⟨place, node⟩)
    (htables : tablesAt node = .ok t) : Finds here p tree tree place t := by
  have hnode := node?_of_lookup hlookup
  subst hnode
  have hnames : p.names ≠ [] := by
    intro hnil
    rw [lookup_text hp, hnil, walk_nil] at hlookup
    split_ifs at hlookup
    · obtain ⟨rfl, -⟩ := Found.mk.inj (Except.ok.inj hlookup)
      cases htables
    · obtain ⟨rfl, -⟩ := Found.mk.inj (Except.ok.inj hlookup)
      rw [hhere] at htables
      cases htables
  obtain ⟨q, hparent⟩ := ht.reach_parent hhere hp hnames hlookup
  exact ⟨ensureFolders_of_reach _ hparent, hlookup, htables⟩

/-- The tree after opening a history file and closing it again. -/
def afterOpening (here : Place) (p : Path) (tree : FileTree) : FileTree := (openAt here p tree).1

/-- Opening a history file whose versions are all below that of the layout brings it up to date without
losing a row, and however often it is opened after that, it stays as it is. -/
theorem openAt_repairs (h : Finds here p tree tree₀ place t) (hbehind : t.IsBehind) :
    ∃ tree' t', openAt here p tree = (tree', .ok ⟨place, none⟩) ∧ kept here p tree' = some t' ∧
      t.Repaired t' ∧
      ∀ n, (afterOpening here p)^[n] tree' = tree' ∧
        openAt here p ((afterOpening here p)^[n] tree') = (tree', .ok ⟨place, none⟩) := by
  have hagain := h.put t.migrate
  have hopen : openAt here p (tree₀.put place (.file (.tables t.migrate))) =
      (tree₀.put place (.file (.tables t.migrate)), .ok ⟨place, none⟩) := by
    rw [hagain.openAt_eq, Tables.migrate_migrate, put_put]
  have hfixed : afterOpening here p (tree₀.put place (.file (.tables t.migrate))) =
      tree₀.put place (.file (.tables t.migrate)) := by
    rw [afterOpening, hopen]
  refine ⟨_, t.migrate, h.openAt_eq, ?_, hbehind.repaired, fun n => ?_⟩
  · exact kept_eq_some.2 ⟨place, h.reach_put _⟩
  · rw [Function.iterate_fixed hfixed n]
    exact ⟨rfl, hopen⟩

/-- Tables with an old version, without a table of scans and with rows in the others. -/
def oldTables : Tables where
  versions := some [0]
  scans := none
  violations := some ⟨[⟨1, "s".toList, .text "r".toList, .text "a".toList, .integer 1, .integer 0,
    .text "http://".toList⟩], 1⟩
  cache := some [⟨"k".toList, .map []⟩]
  changes := 3

/-- A history file `d` with old tables. -/
def oldFile : FileTree := ⟨[(["d".toList], .file (.tables oldTables))], [], []⟩

theorem finds_oldFile :
    Finds [] (Path.ofText "d".toList) oldFile oldFile ["d".toList] oldTables where
  folders := by cbv
  lookup := by cbv
  tables := by cbv

theorem isBehind_oldTables : oldTables.IsBehind := by
  rintro _ ⟨⟩
  decide

/-- A file with old tables is opened with the rows it has, and opened again as it is. -/
theorem openAt_repairs_oldFile :
    ∃ tree' t', openAt [] (Path.ofText "d".toList) oldFile = (tree', .ok ⟨["d".toList], none⟩) ∧
      kept [] (Path.ofText "d".toList) tree' = some t' ∧ oldTables.Repaired t' ∧
      ∀ n, (afterOpening [] (Path.ofText "d".toList))^[n] tree' = tree' ∧
        openAt [] (Path.ofText "d".toList)
          ((afterOpening [] (Path.ofText "d".toList))^[n] tree') =
          (tree', .ok ⟨["d".toList], none⟩) :=
  openAt_repairs finds_oldFile isBehind_oldTables

/-- Whichever tables an opening that was broken off has made, the next one ends as one that is not
broken off. -/
theorem openAt_of_brokenOff (h : Finds here p tree tree₀ place t) (hbehind : t.IsBehind)
    (names : List Text) :
    openAt here p (tree₀.put place (.file (.tables (names.foldl Tables.create t)))) =
      openAt here p tree := by
  rw [(h.put _).openAt_eq, h.openAt_eq, hbehind.migrate_foldl, put_put]

end InsecureLinks.Store
