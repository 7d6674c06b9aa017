import Mathlib
import InsecureLinks.Proofs.Files.Writing
import InsecureLinks.Store.ReportCache

/-!
# What a history file keeps

Opening a history file may make folders, but nothing that was there is changed but the file itself
(`Finds.openAt_eq`).  What an operation commits is what the file then holds (`withFile_eq_ok`), and the
next operation on it begins there (`withFile_of_kept`).  So a report that is put under a key is got under
that key for as long as the file stays what it is (`Holds.get_eq`).
-/

namespace InsecureLinks

/-! ## Trees with more in them -/

namespace FileTree

/-- Whether one tree is within another. -/
def Within (t t' : FileTree) : Prop := ∀ place x, t.node? place = some x → t'.node? place = some x

section Within

variable {t t' t'' : FileTree} {here place : Place} {p : Path}

theorem Within.refl (t : FileTree) : Within t t := fun _ _ h => h

theorem Within.trans (h : Within t t') (h' : Within t' t'') : Within t t'' :=
  fun place x hx => h' place x (h place x hx)

theorem Within.keeps (h : Within t t') : Keeps t t' :=
  ⟨fun place hplace => h place _ hplace, fun place _ hplace => h place _ hplace⟩

theorem within_put (hfree : t.node? place = none) (x : Node) : Within t (t.put place x) := by
  have hne : place ≠ [] := by
    rintro rfl
    cases hfree
  intro p y hp
  rw [node?_put t hne, if_neg, hp]
  rintro rfl
  rw [hfree] at hp
  cases hp

theorem makeFolder_within (h : t.makeFolder here p = .ok t') : Within t t' := by
  rw [makeFolder] at h
  split at h
  · next place hlookup =>
    cases h
    exact within_put (node?_of_lookup hlookup) _
  · cases h
  · cases h

/-- Making folders takes nothing away. -/
theorem ensureFolders_within {start : PathStart} {count : ℕ} {names : List Text}
    (h : t.ensureFolders here start count names = .ok t') : Within t t' :=
  ensureFolders_related (R := Within) Within.refl makeFolder_within Within.trans h

end Within

end FileTree

namespace Store

open FileTree

variable {tree tree' : FileTree} {here : Place} {p : Path} {α : Type}

/-! ## Opening -/

/-- The tables in the history file that a path leads to. -/
def kept (here : Place) (p : Path) (tree : FileTree) : Option Tables :=
  match tree.reach here p.text with
  | .ok (_, .file (.tables t)) => some t
  | _ => none

theorem kept_eq_some {t : Tables} :
    kept here p tree = some t ↔ ∃ place, tree.reach here p.text = .ok (place, .file (.tables t)) := by
  rw [kept]
  constructor
  · intro h
    split at h
    · next place t' hreach =>
      cases h
      exact ⟨place, hreach⟩
    · cases h
  · rintro ⟨place, hreach⟩
    rw [hreach]

theorem tablesAt_eq_ok {node : Option Node} {t : Tables} (h : tablesAt node = .ok t) :
    node = none ∨ ∃ content, node = some (.file content) ∧ tablesOf content = .ok t := by
  rcases node with _ | ⟨content⟩ | _ | _ | _
  · exact .inl rfl
  · exact .inr ⟨content, rfl, h⟩
  · cases h
  · cases h
  · cases h

/-- Whether opening finds tables at a place, once the folders on the way there are made.  Where
nothing is, or an empty file, these are no tables. -/
structure Finds (here : Place) (p : Path) (tree tree₀ : FileTree) (place : Place) (t : Tables) :
    Prop where
  folders : tree.ensureFolders here p.parent.start p.parent.names.length p.parent.names = .ok tree₀
  lookup : tree₀.lookup true here p.text = .ok ⟨place, tree₀.node? place⟩
  tables : tablesAt (tree₀.node? place) = .ok t

section Finds

variable {tree₀ : FileTree} {place : Place} {t : Tables}

/-- Opening puts the tables that it finds where they were found, brought up to date. -/
theorem Finds.openAt_eq (h : Finds here p tree tree₀ place t) :
    openAt here p tree = (tree₀.put place (.file (.tables t.migrate)), .ok ⟨place, none⟩) := by
  rw [openAt, h.folders]
  dsimp only
  rw [h.lookup]
  dsimp only
  rw [h.tables]

/-- An opening that succeeds has found tables. -/
theorem exists_finds_of_openAt {o : Opened} (h : openAt here p tree = (tree', .ok o)) :
    ∃ tree₀ place t, Finds here p tree tree₀ place t ∧
      tree' = tree₀.put place (.file (.tables t.migrate)) ∧ o = ⟨place, none⟩ := by
  rw [openAt] at h
  split at h
  · cases h
  · next tree₀ hfolders =>
    split at h
    · cases h
    · next found hlookup =>
      split at h
      · cases h
      · next t ht =>
        cases h
        have hnode := node?_of_lookup hlookup
        exact ⟨tree₀, found.place, t, ⟨hfolders, by rw [hlookup, hnode], by rw [hnode, ht]⟩, rfl, rfl⟩

theorem Finds.node?_ne (h : Finds here p tree tree₀ place t) :
    tree₀.node? place ≠ some .folder ∧ ∀ target, tree₀.node? place ≠ some (.link target) := by
  rcases tablesAt_eq_ok h.tables with hnode | ⟨content, hnode, -⟩
  · simp [hnode]
  · simp [hnode]

/-- What is put where tables were found is what the path then leads to. -/
theorem Finds.reach_put (h : Finds here p tree tree₀ place t) (content : Content) :
    (tree₀.put place (.file content)).reach here p.text = .ok (place, .file content) :=
  FileTree.reach_put h.lookup h.node?_ne.1 h.node?_ne.2 content

end Finds

/-! ## One operation -/

/-- The connection after an operation that succeeds. -/
def Operation.after (operation : Operation α) (c : Connection) : Except StoreFault Connection :=
  (operation c).2.map fun _ => (operation c).1

theorem Operation.after_eq_ok {operation : Operation α} {c c' : Connection} :
    operation.after c = .ok c' ↔ ∃ a, operation c = (c', .ok a) := by
  rw [after, map_eq_ok]
  constructor
  · rintro ⟨a, ha, rfl⟩
    exact ⟨a, Prod.ext rfl ha⟩
  · rintro ⟨a, ha⟩
    exact ⟨a, by rw [ha], by rw [ha]⟩

/-- An operation that succeeds begins with the tables that were found, and the file then keeps what
it has committed. -/
theorem withFile_eq_ok {operation : Operation α} {a : α}
    (h : withFile here p operation tree = (tree', .ok a)) :
    ∃ tree₀ place node t c, Within tree tree₀ ∧
      tree₀.lookup true here p.text = .ok ⟨place, node⟩ ∧ tablesAt node = .ok t ∧
      operation ⟨t.migrate, none⟩ = (c, .ok a) ∧ kept here p tree' = some c.committed := by
  rw [withFile] at h
  rcases hopen : openAt here p tree with ⟨tree₁, f | o⟩
  · rw [hopen] at h
    cases h
  · rw [hopen] at h
    obtain ⟨tree₀, place, t, hfinds, rfl, rfl⟩ := exists_finds_of_openAt hopen
    -- The file is put twice, by the opening and by the operation.
    have hreach := hfinds.reach_put (.tables t.migrate)
    have hopened := node?_of_reach hreach
    rcases hop : operation ⟨t.migrate, none⟩ with ⟨c, outcome⟩
    simp only [Opened.perform, Opened.committed, hopened, hop] at h
    obtain ⟨rfl, rfl⟩ := Prod.mk.inj h
    refine ⟨tree₀, place, _, t, c, ensureFolders_within hfinds.folders, hfinds.lookup, hfinds.tables,
      hop, kept_eq_some.2 ⟨place, ?_⟩⟩
    exact reach_put (reach_eq_ok.1 hreach) (by simp [hopened]) (by simp [hopened]) _

/-- An operation on a history file begins with what the file keeps. -/
theorem withFile_of_kept {operation : Operation α} {a : α} {t : Tables}
    (hkept : kept here p tree = some t) (h : withFile here p operation tree = (tree', .ok a)) :
    ∃ c, operation ⟨t.migrate, none⟩ = (c, .ok a) ∧ kept here p tree' = some c.committed := by
  obtain ⟨tree₀, place, node, t', c, hwithin, hlookup, ht', hop, hkept'⟩ := withFile_eq_ok h
  obtain ⟨place', hreach⟩ := kept_eq_some.1 hkept
  have hlookup' := reach_eq_ok.1
    (hwithin.keeps.reach_eq_ok hreach (hwithin _ _ (node?_of_reach hreach)) (by simp))
  rw [hlookup] at hlookup'
  obtain ⟨rfl, rfl⟩ := Found.mk.inj (Except.ok.inj hlookup')
  obtain rfl : t = t' := Except.ok.inj ht'
  exact ⟨c, hop, hkept'⟩

/-! ## Reports kept for reuse -/

theorem cache_migrate {t : Tables} {rows : List CacheRow} (h : t.cache = some rows) :
    t.migrate.cache = some rows := by
  rw [Tables.migrate]
  split_ifs
  · simp [Tables.complete, h]
  · exact h

namespace ReportCache

theorem find?_insert (key : Text) (report : Value) (rows : List CacheRow) :
    find? key (insert key report rows) = some report := by
  have hnone : (rows.filter fun row => row.key ≠ key).find? (fun row => row.key = key) = none := by
    rw [List.find?_eq_none]
    intro row hrow
    simpa using (List.mem_filter.1 hrow).2
  rw [find?, insert, List.find?_append, hnone]
  simp

/-- What is put under a key is there once it has been committed. -/
theorem put_eq_ok {key : Text} {report : Value} {t : Tables} {c : Connection}
    (h : put key report ⟨t, none⟩ = (c, .ok ())) :
    ∃ rows, t.cache = some rows ∧ c.committed.cache = some (insert key report rows) := by
  rw [put, Operation.change, Connection.view] at h
  dsimp only [Option.getD] at h
  rcases hcache : t.cache with _ | rows
  · rw [hcache] at h
    cases h
  · rw [hcache] at h
    cases h
    exact ⟨rows, rfl, rfl⟩

/-- What is got under a key is what the tables have under it, and they stay as they are. -/
theorem get_eq_ok {key : Text} {found : Option Value} {t : Tables} {c : Connection}
    (h : get key ⟨t, none⟩ = (c, .ok found)) :
    ∃ rows, t.cache = some rows ∧ c.committed = t ∧ found = find? key rows := by
  rw [get, Operation.ask, Connection.view] at h
  dsimp only [Option.getD] at h
  rcases hcache : t.cache with _ | rows
  · rw [hcache] at h
    cases h
  · rw [hcache] at h
    cases h
    exact ⟨rows, rfl, rfl, rfl⟩

end ReportCache

/-- Whether a document is kept under a key in the history file that a path leads to. -/
def Holds (here : Place) (p : Path) (key : Text) (d : Value) (tree : FileTree) : Prop :=
  ∃ t rows, kept here p tree = some t ∧ t.cache = some rows ∧ ReportCache.find? key rows = some d

section Holds

variable {key : Text} {d : Value}

theorem holds_of_put (h : withFile here p (ReportCache.put key d) tree = (tree', .ok ())) :
    Holds here p key d tree' := by
  obtain ⟨-, -, -, t, c, -, -, -, hop, hkept⟩ := withFile_eq_ok h
  obtain ⟨rows, -, hrows⟩ := ReportCache.put_eq_ok hop
  exact ⟨c.committed, _, hkept, hrows, ReportCache.find?_insert key d rows⟩

theorem holds_of_get (h : withFile here p (ReportCache.get key) tree = (tree', .ok (some d))) :
    Holds here p key d tree' := by
  obtain ⟨-, -, -, t, c, -, -, -, hop, hkept⟩ := withFile_eq_ok h
  obtain ⟨rows, hrows, hcommitted, hfound⟩ := ReportCache.get_eq_ok hop
  rw [hcommitted] at hkept
  exact ⟨t.migrate, rows, hkept, hrows, hfound.symm⟩

/-- A document that is kept is found. -/
theorem Holds.get_eq (h : Holds here p key d tree) {found : Option Value}
    (hget : withFile here p (ReportCache.get key) tree = (tree', .ok found)) : found = some d := by
  obtain ⟨t, rows, hkept, hrows, hfind⟩ := h
  obtain ⟨c, hop, -⟩ := withFile_of_kept hkept hget
  obtain ⟨rows', hrows', -, hfound⟩ := ReportCache.get_eq_ok hop
  rw [cache_migrate hrows] at hrows'
  cases hrows'
  rw [hfound, hfind]

end Holds

end Store

end InsecureLinks
