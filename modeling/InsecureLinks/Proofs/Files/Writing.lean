import Mathlib
import InsecureLinks.Proofs.Files.Growth

/-!
# What writing does to a tree

Making folders and writing files makes a tree grow, and no file is new or other than it was except
where the written paths lead (`GrowsAt`).  Nothing is ever put in place of a link, as a look-up that
follows links does not end at one, and what is new is in a folder that was there or is new itself
(`IsRooted.walk_ends`).
-/

namespace InsecureLinks.FileTree

variable {t t' t'' : FileTree} {here place : Place} {p : Path}

/-! ## Where look-ups end -/

theorem mem_lookupNames {written n : Text} (h : n ∈ lookupNames written) : n ≠ [] ∧ '/' ∉ n := by
  rw [lookupNames, List.mem_append, List.mem_filter] at h
  rcases h with ⟨hmem, hne⟩ | hmem
  · exact ⟨by simpa using hne, Text.not_mem_of_mem_fields hmem⟩
  · split_ifs at hmem
    · rw [List.mem_singleton.1 hmem]
      decide
    · cases hmem

/-- A look-up goes on from a folder to a folder. -/
theorem IsRooted.folder_of_goesOn (ht : t.IsRooted) {follow : Bool} {links links' : ℕ}
    {place' : Place} {names names' : List Text}
    (h : GoesOn t follow links place names links' place' names')
    (hplace : t.node? place = some .folder) : t.node? place' = some .folder := by
  cases h with
  | dot => exact hplace
  | dotDot =>
    rcases List.eq_nil_or_concat place with rfl | ⟨folder, name, rfl⟩
    · exact hplace
    · rw [List.concat_eq_append] at hplace ⊢
      rw [List.dropLast_concat]
      exact (ht _ _ _ hplace).2
  | folder hname hnode => exact hnode
  | link hname hnode hfollow =>
    rw [linkStart]
    split_ifs
    · rfl
    · exact hplace

/-- The names of a link are neither empty nor do they hold a slash. -/
theorem GoesOn.forall_mem_names {follow : Bool} {links links' : ℕ} {place' : Place}
    {names names' : List Text} (h : GoesOn t follow links place names links' place' names')
    (hnames : ∀ n ∈ names, n ≠ [] ∧ '/' ∉ n) : ∀ n ∈ names', n ≠ [] ∧ '/' ∉ n := by
  intro n hn
  cases h with
  | dot | dotDot | folder => exact hnames n (List.mem_cons_of_mem _ hn)
  | link =>
    rcases List.mem_append.1 hn with hn | hn
    · exact mem_lookupNames hn
    · exact hnames n (List.mem_cons_of_mem _ hn)

/-- A look-up from a folder that ends where nothing is ends under a possible name in a folder, and one
that follows links does not end at a link. -/
theorem IsRooted.walk_ends (ht : t.IsRooted) {follow : Bool} {links : ℕ} {names : List Text}
    {q : Place} {x : Option Node} (hplace : t.node? place = some .folder)
    (hnames : ∀ n ∈ names, n ≠ [] ∧ '/' ∉ n)
    (h : t.walk follow links place names = .ok ⟨q, x⟩) :
    (x = none → ∃ folder name, q = folder ++ [name] ∧ IsName name ∧
      t.node? folder = some .folder) ∧
      (follow = true → ∀ target, x ≠ some (.link target)) := by
  induction links, place, names using walk_induction t follow with
  | ends links place names r hends =>
    rw [hends.walk_eq] at h
    subst h
    rcases hends.eq_ok with ⟨rfl, rfl, rfl⟩ | ⟨name, rfl, rfl, -, hname, -, hlink⟩
    · simp [hplace]
    · refine ⟨fun _ => ⟨place, name, rfl, ?_, hplace⟩, fun hfollow target htarget => ?_⟩
      · obtain ⟨hne, hslash⟩ := hnames name (List.mem_singleton_self _)
        exact ⟨hne, hname.ne_dot, hname.ne_dotDot, hslash, hname.short⟩
      · cases hfollow.symm.trans (hlink target htarget)
  | goesOn links place names links' place' names' hgoes ih =>
    rw [hgoes.walk_eq] at h
    exact ih (ht.folder_of_goesOn hgoes hplace) (hgoes.forall_mem_names hnames) h

section Lookup

variable (ht : t.IsRooted) (hhere : t.node? here = some .folder)

include ht hhere

theorem IsRooted.lookup_ends {follow : Bool} {written : Text} {x : Option Node}
    (h : t.lookup follow here written = .ok ⟨place, x⟩) :
    (x = none → ∃ folder name, place = folder ++ [name] ∧ IsName name ∧
      t.node? folder = some .folder) ∧
      (follow = true → ∀ target, x ≠ some (.link target)) := by
  rw [lookup] at h
  split_ifs at h
  refine ht.walk_ends ?_ (fun n hn => mem_lookupNames hn) h
  rw [linkStart]
  split_ifs
  · rfl
  · exact hhere

end Lookup

/-! ## Growth at some places -/

/-- Whether a tree has grown into another in which all files that are new or changed are at some
places. -/
structure GrowsAt (written : Set Place) (t t' : FileTree) : Prop where
  grows : Grows t t'
  same : ∀ p c, p ∉ written → t'.node? p = some (.file c) → t.node? p = some (.file c)

section GrowsAt

variable {written written' : Set Place}

theorem GrowsAt.refl (written : Set Place) (t : FileTree) : GrowsAt written t t :=
  ⟨.refl t, fun _ _ _ h => h⟩

theorem GrowsAt.trans (h : GrowsAt written t t') (h' : GrowsAt written t' t'') :
    GrowsAt written t t'' :=
  ⟨h.grows.trans h'.grows, fun p c hp hc => h.same p c hp (h'.same p c hp hc)⟩

theorem GrowsAt.mono (h : GrowsAt written t t') (hsub : written ⊆ written') :
    GrowsAt written' t t' :=
  ⟨h.grows, fun p c hp hc => h.same p c (fun hmem => hp (hsub hmem)) hc⟩

/-- A file elsewhere stays as it is. -/
theorem GrowsAt.node?_eq (h : GrowsAt written t t') {q : Place} {c : Content} (hq : q ∉ written)
    (hc : t.node? q = some (.file c)) : t'.node? q = some (.file c) := by
  obtain ⟨x, hx, halike⟩ := h.grows.kept q _ hc
  cases halike with
  | file _ c' => rwa [← hc, h.same q c' hq hx]

theorem growsAt_put {name : Text} (hfree : t.node? (place ++ [name]) = none) (hname : IsName name)
    (hfolder : t.node? place = some .folder) {x : Node} (hx : IsAddable x)
    (hwritten : ∀ c, x = .file c → place ++ [name] ∈ written) :
    GrowsAt written t (t.put (place ++ [name]) x) where
  grows := grows_put hfree hname hfolder hx
  same q c hq hc := by
    rw [node?_put t (by simp)] at hc
    split_ifs at hc with heq
    · cases hc
      exact absurd (heq ▸ hwritten c rfl) hq
    · exact hc

theorem growsAt_put_file {c : Content} (h : t.node? place = some (.file c)) (c' : Content)
    (hwritten : place ∈ written) : GrowsAt written t (t.put place (.file c')) where
  grows := (sameOutline_put h c').grows
  same q c'' hq hc := by
    rw [node?_put t (ne_nil_of_file h), if_neg] at hc
    · exact hc
    · rintro rfl
      exact hq hwritten

end GrowsAt

/-- The place of the file to which a path leads, if it leads to one. -/
def ends (t : FileTree) (here : Place) (p : Path) : Set Place :=
  {q | ∃ c, t.reach here p.text = .ok (q, .file c)}

theorem Grows.ends_subset (h : Grows t t') : t.ends here p ⊆ t'.ends here p := by
  rintro q ⟨c, hreach⟩
  obtain ⟨x, hreach', halike⟩ := h.reach_eq_ok hreach
  cases halike with
  | file _ c' => exact ⟨c', hreach'⟩

section Operations

variable (ht : t.IsRooted) (hhere : t.node? here = some .folder)

include ht hhere

/-- A file that is put where a path leads, to a file or to nothing. -/
theorem growsAt_of_lookup {x : Option Node} (h : t.lookup true here p.text = .ok ⟨place, x⟩)
    (hx : ∀ y, x = some y → ∃ c, y = .file c) (c' : Content) :
    GrowsAt ((t.put place (.file c')).ends here p) t (t.put place (.file c')) ∧
      (t.put place (.file c')).reach here p.text = .ok (place, .file c') := by
  have hnode := node?_of_lookup h
  have hreach : (t.put place (.file c')).reach here p.text = .ok (place, .file c') := by
    refine reach_put h ?_ (fun target => ?_) c'
    · rw [hnode]
      intro hfolder
      obtain ⟨c, hc⟩ := hx _ hfolder
      cases hc
    · rw [hnode]
      exact (ht.lookup_ends hhere h).2 rfl target
  refine ⟨?_, hreach⟩
  rcases x with _ | y
  · obtain ⟨folder, name, rfl, hname, hfolder⟩ := (ht.lookup_ends hhere h).1 rfl
    exact growsAt_put hnode hname hfolder (.inr ⟨c', rfl⟩) fun _ _ => ⟨c', hreach⟩
  · obtain ⟨c, rfl⟩ := hx y rfl
    exact growsAt_put_file hnode c' ⟨c', hreach⟩

/-- Writing changes the file to which the path then leads, and nothing else. -/
theorem write_growsAt {b : Utf8.Bytes} (h : t.write here p b = .ok t') :
    GrowsAt (t'.ends here p) t t' := by
  rw [write] at h
  split_ifs at h
  split at h
  · cases h
  · cases h
    exact .refl _ t
  · next place x hfolder hpipe hlookup =>
    cases h
    refine (growsAt_of_lookup ht hhere hlookup (fun y hy => ?_) _).1
    subst hy
    cases y with
    | file c => exact ⟨c, rfl⟩
    | folder => exact absurd rfl hfolder
    | pipe => exact absurd rfl hpipe
    | link target => exact absurd rfl ((ht.lookup_ends hhere hlookup).2 rfl target)
  · cases h

theorem makeFolder_growsAt (h : t.makeFolder here p = .ok t') : GrowsAt ∅ t t' := by
  rw [makeFolder] at h
  split at h
  · next place hlookup =>
    cases h
    obtain ⟨folder, name, rfl, hname, hfolder⟩ := (ht.lookup_ends hhere hlookup).1 rfl
    exact growsAt_put (node?_of_lookup hlookup) hname hfolder (.inl rfl) (by simp)
  · cases h
  · cases h

end Operations

/-! ## Making folders -/

section Folders

variable {R : FileTree → FileTree → Prop} (hrefl : ∀ t, R t t)
  (hmake : ∀ {t t' : FileTree} {p : Path}, t.makeFolder here p = .ok t' → R t t')

include hrefl hmake

theorem ensureFolder_related (h : t.ensureFolder here p = .ok t') : R t t' := by
  rw [ensureFolder] at h
  split at h
  · next hfolder =>
    cases h
    exact hmake hfolder
  · obtain ⟨there, -, h⟩ := bind_eq_ok.1 h
    cases there with
    | false => cases h
    | true =>
      cases h
      exact hrefl t

/-- What is between a tree and that with one more folder is between a tree and that with all the
folders on the way to a place. -/
theorem ensureFolders_related (htrans : ∀ {t t' t'' : FileTree}, R t t' → R t' t'' → R t t'')
    {start : PathStart} {count : ℕ} {names : List Text}
    (h : t.ensureFolders here start count names = .ok t') : R t t' := by
  induction count generalizing names t' with
  | zero => exact ensureFolder_related hrefl hmake h
  | succ count ih =>
    rw [ensureFolders] at h
    split at h
    · next hfolder =>
      cases h
      exact hmake hfolder
    · split_ifs at h
      · obtain ⟨t₁, ht₁, h⟩ := bind_eq_ok.1 h
        exact htrans (ih ht₁) (ensureFolder_related hrefl hmake h)
      · exact ensureFolder_related hrefl hmake h

end Folders

/-- Making folders neither adds nor changes a file. -/
theorem ensureFolders_growsAt (ht : t.IsRooted) (hhere : t.node? here = some .folder)
    {start : PathStart} {count : ℕ} {names : List Text}
    (h : t.ensureFolders here start count names = .ok t') : GrowsAt ∅ t t' := by
  let R (t t' : FileTree) : Prop :=
    t.IsRooted → t.node? here = some .folder → GrowsAt ∅ t t'
  have htrans : ∀ {t t' t'' : FileTree}, R t t' → R t' t'' → R t t'' := by
    intro t t' t'' h h' ht hhere
    have hfirst := h ht hhere
    exact hfirst.trans (h' (hfirst.grows.isRooted ht) (hfirst.grows.keeps.folder here hhere))
  exact ensureFolders_related (R := R) (fun t _ _ => .refl ∅ t)
    (fun h ht hhere => makeFolder_growsAt ht hhere h) htrans h ht hhere

end InsecureLinks.FileTree
