import Mathlib
import InsecureLinks.Proofs.Files.Lookup

/-!
# Trees that grow

What writing files and making folders does to a tree: everything that was there is still there and
of the same kind, though a file may hold something else, and what is new are files and folders
(`Grows`).  A look-up that found something ends at the same place afterwards, and so does one that
was denied (`Grows.walk_eq_error`); only a look-up that found nothing may come to something new.

If nothing at all is new the trees have the same outline (`SameOutline`), and this goes both ways.
-/

namespace InsecureLinks.FileTree

/-- Whether two nodes are of one kind: two files, whatever they hold, or else the same. -/
inductive Alike : Node → Node → Prop
  | file (c c' : Content) : Alike (.file c) (.file c')
  | folder : Alike .folder .folder
  | link (target : Text) : Alike (.link target) (.link target)
  | pipe : Alike .pipe .pipe

theorem Alike.refl (x : Node) : Alike x x := by
  cases x with
  | file c => exact .file c c
  | folder => exact .folder
  | link target => exact .link target
  | pipe => exact .pipe

theorem Alike.symm {x y : Node} (h : Alike x y) : Alike y x := by
  cases h with
  | file c c' => exact .file c' c
  | folder => exact .folder
  | link target => exact .link target
  | pipe => exact .pipe

theorem Alike.trans {x y z : Node} (h : Alike x y) (h' : Alike y z) : Alike x z := by
  cases h with
  | file c c' =>
    cases h' with
    | file _ c'' => exact .file c c''
  | folder => exact h'
  | link target => exact h'
  | pipe => exact h'

/-- Whether a node can be new: a file or a folder. -/
def IsAddable (x : Node) : Prop := x = .folder ∨ ∃ content, x = .file content

/-- Whether a tree has grown into another. -/
structure Grows (t t' : FileTree) : Prop where
  unlistable : t'.unlistable = t.unlistable
  unreadable : t'.unreadable = t.unreadable
  kept : ∀ place x, t.node? place = some x → ∃ x', t'.node? place = some x' ∧ Alike x x'
  listed : ∃ new, t'.nodes.map Prod.fst = t.nodes.map Prod.fst ++ new ∧
    ∀ place ∈ new, t.node? place = none
  added : ∀ place x, t.node? place = none → t'.node? place = some x →
    IsAddable x ∧ ∃ folder name, place = folder ++ [name] ∧ IsName name ∧
      t'.node? folder = some .folder

/-- Whether two trees differ in what files hold at most. -/
structure SameOutline (t t' : FileTree) : Prop where
  unlistable : t'.unlistable = t.unlistable
  unreadable : t'.unreadable = t.unreadable
  places : t'.nodes.map Prod.fst = t.nodes.map Prod.fst
  alike : ∀ place x, t.node? place = some x → ∃ x', t'.node? place = some x' ∧ Alike x x'

variable {t t' t'' : FileTree} {here place : Place}

/-! ## Outlines -/

theorem SameOutline.refl (t : FileTree) : SameOutline t t :=
  ⟨rfl, rfl, rfl, fun _ x hx => ⟨x, hx, .refl x⟩⟩

theorem SameOutline.trans (h : SameOutline t t') (h' : SameOutline t' t'') : SameOutline t t'' where
  unlistable := h'.unlistable.trans h.unlistable
  unreadable := h'.unreadable.trans h.unreadable
  places := h'.places.trans h.places
  alike place x hx := by
    obtain ⟨x', hx', hxx'⟩ := h.alike place x hx
    obtain ⟨x'', hx'', hxx''⟩ := h'.alike place x' hx'
    exact ⟨x'', hx'', hxx'.trans hxx''⟩

theorem SameOutline.node?_eq_none (h : SameOutline t t') (hnone : t.node? place = none) :
    t'.node? place = none := by
  rcases hx : t'.node? place with _ | x
  · rfl
  · rcases eq_or_ne place [] with rfl | hne
    · cases hnone
    · have hlisted : place ∈ t.nodes.map Prod.fst := by
        rw [← h.places]
        exact List.mem_map_of_mem (mem_of_node? hx hne)
      obtain ⟨y, hy⟩ := exists_node? hlisted
      rw [hnone] at hy
      cases hy

theorem SameOutline.symm (h : SameOutline t t') : SameOutline t' t where
  unlistable := h.unlistable.symm
  unreadable := h.unreadable.symm
  places := h.places.symm
  alike place x hx := by
    rcases hy : t.node? place with _ | y
    · rw [h.node?_eq_none hy] at hx
      cases hx
    · obtain ⟨x', hx', hyx⟩ := h.alike place y hy
      rw [hx] at hx'
      cases hx'
      exact ⟨y, rfl, hyx.symm⟩

theorem SameOutline.grows (h : SameOutline t t') : Grows t t' where
  unlistable := h.unlistable
  unreadable := h.unreadable
  kept := h.alike
  listed := ⟨[], by rw [h.places, List.append_nil], by simp⟩
  added place x hnone hx := by
    rw [h.node?_eq_none hnone] at hx
    cases hx

/-- A file that is written where a file is leaves the outline as it is. -/
theorem sameOutline_put {c : Content} (h : t.node? place = some (.file c)) (c' : Content) :
    SameOutline t (t.put place (.file c')) where
  unlistable := put_unlistable _ _ _
  unreadable := put_unreadable _ _ _
  places := by
    have hany : t.nodes.any (fun q => decide (q.1 = place)) = true :=
      List.any_eq_true.2 ⟨_, mem_of_node? h (ne_nil_of_file h), by simp⟩
    rw [put_eq, if_pos hany, List.map_map]
    refine List.map_congr_left fun q _ => ?_
    dsimp only [Function.comp_apply]
    split <;> rfl
  alike p x hx := by
    rw [node?_put t (ne_nil_of_file h)]
    split_ifs with heq
    · subst heq
      rw [h] at hx
      cases hx
      exact ⟨_, rfl, .file c c'⟩
    · exact ⟨x, hx, .refl x⟩

/-! ## Growth -/

theorem Grows.refl (t : FileTree) : Grows t t := (SameOutline.refl t).grows

theorem Grows.keeps (h : Grows t t') : Keeps t t' where
  folder place hplace := by
    obtain ⟨x', hx', hfolder⟩ := h.kept place _ hplace
    cases hfolder
    exact hx'
  link place target hplace := by
    obtain ⟨x', hx', hlink⟩ := h.kept place _ hplace
    cases hlink
    exact hx'

theorem Grows.trans (h : Grows t t') (h' : Grows t' t'') : Grows t t'' where
  unlistable := h'.unlistable.trans h.unlistable
  unreadable := h'.unreadable.trans h.unreadable
  kept place x hx := by
    obtain ⟨x', hx', hxx'⟩ := h.kept place x hx
    obtain ⟨x'', hx'', hxx''⟩ := h'.kept place x' hx'
    exact ⟨x'', hx'', hxx'.trans hxx''⟩
  listed := by
    obtain ⟨new, hnew, hfree⟩ := h.listed
    obtain ⟨new', hnew', hfree'⟩ := h'.listed
    refine ⟨new ++ new', by rw [hnew', hnew, List.append_assoc], fun place hplace => ?_⟩
    rcases List.mem_append.1 hplace with hplace | hplace
    · exact hfree place hplace
    · rcases hx : t.node? place with _ | x
      · rfl
      · obtain ⟨x', hx', -⟩ := h.kept place x hx
        rw [hfree' place hplace] at hx'
        cases hx'
  added place x hnone hx := by
    rcases hy : t'.node? place with _ | y
    · exact h'.added place x hy hx
    · obtain ⟨hadd, folder, name, heq, hname, hfolder⟩ := h.added place y hnone hy
      refine ⟨?_, folder, name, heq, hname, h'.keeps.folder _ hfolder⟩
      obtain ⟨x', hx', hyx⟩ := h'.kept place y hy
      rw [hx] at hx'
      cases hx'
      rcases hadd with rfl | ⟨c, rfl⟩
      · cases hyx
        exact .inl rfl
      · cases hyx with
        | file _ c' => exact .inr ⟨c', rfl⟩

/-- A file or a folder that is put in a folder under a free name is growth. -/
theorem grows_put {x : Node} {name : Text} (hfree : t.node? (place ++ [name]) = none)
    (hname : IsName name) (hfolder : t.node? place = some .folder) (hx : IsAddable x) :
    Grows t (t.put (place ++ [name]) x) where
  unlistable := put_unlistable _ _ _
  unreadable := put_unreadable _ _ _
  kept p y hy := by
    rw [node?_put t (by simp), if_neg]
    · exact ⟨y, hy, .refl y⟩
    · rintro rfl
      rw [hfree] at hy
      cases hy
  listed := by
    have hany : ¬t.nodes.any (fun q => decide (q.1 = place ++ [name])) = true := by
      intro hany
      obtain ⟨⟨q, y⟩, hq, hqp⟩ := List.any_eq_true.1 hany
      obtain rfl : q = place ++ [name] := by simpa using hqp
      obtain ⟨z, hz⟩ := exists_node? (List.mem_map_of_mem (f := Prod.fst) hq)
      rw [show ((place ++ [name], y) : Place × Node).1 = place ++ [name] from rfl, hfree] at hz
      cases hz
    rw [put_eq, if_neg hany]
    exact ⟨[place ++ [name]], by simp, by simpa using hfree⟩
  added p y hnone hy := by
    rw [node?_put t (by simp)] at hy
    split_ifs at hy with heq
    · cases hy
      refine ⟨hx, place, name, heq, hname, ?_⟩
      rw [node?_put t (by simp), if_neg (by simp), hfolder]
    · rw [hnone] at hy
      cases hy

section Grows

variable (h : Grows t t')

include h

theorem Grows.isRooted (ht : t.IsRooted) : t'.IsRooted := by
  intro place name x hx
  rcases hy : t.node? (place ++ [name]) with _ | y
  · obtain ⟨-, folder, name', heq, hname⟩ := h.added _ _ hy hx
    obtain ⟨rfl, rfl⟩ : place = folder ∧ name = name' := by simpa using heq
    exact hname
  · obtain ⟨hname, hfolder⟩ := ht place name y hy
    exact ⟨hname, h.keeps.folder place hfolder⟩

/-- A folder lists what it listed before, and what is new among it. -/
theorem Grows.names_eq (place : Place) :
    t.names place = (t'.names place).filter fun name => (t.node? (place ++ [name])).isSome := by
  obtain ⟨new, hnew, hfree⟩ := h.listed
  let old := (t.nodes.map Prod.fst).filterMap (nameIn place)
  have hold : old.filter (fun name => (t.node? (place ++ [name])).isSome) = old := by
    refine List.filter_eq_self.2 fun name hname => ?_
    obtain ⟨p, hp, hname⟩ := List.mem_filterMap.1 hname
    obtain ⟨x, hx⟩ := exists_node? hp
    rw [nameIn_eq_some.1 hname] at hx
    rw [hx]
    rfl
  have hnone : (new.filterMap (nameIn place)).filter
      (fun name => (t.node? (place ++ [name])).isSome) = [] := by
    refine List.filter_eq_nil_iff.2 fun name hname => ?_
    obtain ⟨p, hp, hname⟩ := List.mem_filterMap.1 hname
    rw [← nameIn_eq_some.1 hname, hfree p hp]
    simp
  have hperm : (t.names place).Perm
      ((t'.names place).filter fun name => (t.node? (place ++ [name])).isSome) := by
    rw [FileTree.names_eq, FileTree.names_eq]
    refine (List.mergeSort_perm old _).trans (List.Perm.symm ?_)
    refine ((List.mergeSort_perm _ _).filter _).trans ?_
    rw [hnew, List.filterMap_append, List.filter_append, hold, hnone, List.append_nil]
  exact hperm.eq_of_pairwise (fun a b _ _ hab hba => le_antisymm hab hba) (names_sorted t place)
    ((names_sorted t' place).filter _)

/-- A look-up that found something ends at the same place. -/
theorem Grows.walk_eq_ok {follow : Bool} {links : ℕ} {names : List Text} {p : Place} {x : Node}
    (hwalk : t.walk follow links place names = .ok ⟨p, some x⟩) :
    ∃ x', t'.walk follow links place names = .ok ⟨p, some x'⟩ ∧ Alike x x' := by
  have hx := node?_of_walk hwalk
  obtain ⟨x', hx', halike⟩ := h.kept p x hx
  refine ⟨x', ?_, halike⟩
  rw [h.keeps.walk_eq_ok (fun target => ?_) hwalk, hx']
  rw [hx, hx']
  cases halike with
  | link other => exact (em _).symm
  | _ => exact .inl (by simp)

theorem Grows.reach_eq_ok {here : Place} {written : Text} {p : Place} {x : Node}
    (hreach : t.reach here written = .ok (p, x)) :
    ∃ x', t'.reach here written = .ok (p, x') ∧ Alike x x' := by
  simp only [FileTree.reach_eq_ok, lookup] at hreach ⊢
  split_ifs at hreach ⊢
  exact h.walk_eq_ok hreach

/-- A look-up that was denied is denied for the same cause, unless it only found nothing. -/
theorem Grows.walk_eq_error {follow : Bool} {links : ℕ} {names : List Text} {c : Cause}
    (hwalk : t.walk follow links place names = .error c) (hc : c ≠ .notFound) :
    t'.walk follow links place names = .error c := by
  induction links, place, names using walk_induction t follow with
  | ends links place names r hends =>
    rw [hends.walk_eq] at hwalk
    subst hwalk
    refine Ends.walk_eq ?_
    cases hends with
    | tooLong hdot hdotDot hlong => exact .tooLong hdot hdotDot hlong
    | notFound => exact absurd rfl hc
    | notAFolder hname hnode hfolder hlink hrest =>
      obtain ⟨x', hx', halike⟩ := h.kept _ _ hnode
      refine .notAFolder hname hx' ?_ ?_ hrest
      · rintro rfl
        cases halike
        exact hfolder rfl
      · rintro target rfl
        cases halike
        exact hlink target rfl
    | tooManyLinks hname hnode hfollow =>
      exact .tooManyLinks hname (h.keeps.link _ _ hnode) hfollow
  | goesOn links place names links' place' names' hgoes ih =>
    rw [hgoes.walk_eq] at hwalk
    rw [(h.keeps.goesOn hgoes).walk_eq]
    exact ih hwalk

theorem Grows.reach_eq_error {here : Place} {written : Text} {c : Cause}
    (hreach : t.reach here written = .error c) (hc : c ≠ .notFound) :
    t'.reach here written = .error c := by
  have hlookup : t.lookup true here written = .error c := by
    rw [reach] at hreach
    rcases hlookup : t.lookup true here written with c' | ⟨p, _ | x⟩
    · rw [hlookup] at hreach
      cases hreach
      rfl
    · rw [hlookup] at hreach
      cases hreach
      exact absurd rfl hc
    · rw [hlookup] at hreach
      cases hreach
  have hlookup' : t'.lookup true here written = .error c := by
    rw [lookup] at hlookup ⊢
    split_ifs at hlookup ⊢
    · exact hlookup
    · exact hlookup
    · exact h.walk_eq_error hlookup hc
  exact reach_of_lookup_error hlookup'

end Grows

/-- What a path leads to is the same in trees with one outline, up to what files hold. -/
theorem SameOutline.reach_cases (h : SameOutline t t') (here : Place) (written : Text) :
    (∃ c, t.reach here written = .error c ∧ t'.reach here written = .error c) ∨
      ∃ p x x', t.reach here written = .ok (p, x) ∧ t'.reach here written = .ok (p, x') ∧
        Alike x x' := by
  rcases hreach : t.reach here written with c | ⟨p, x⟩
  · rcases hreach' : t'.reach here written with c' | ⟨p, x'⟩
    · refine .inl ⟨c, rfl, ?_⟩
      by_cases hc : c = .notFound
      · by_cases hc' : c' = .notFound
        · rw [hc, hc']
        · have hback := h.symm.grows.reach_eq_error hreach' hc'
          rw [hreach] at hback
          exact hback.symm
      · have hforth := h.grows.reach_eq_error hreach hc
        rwa [hreach'] at hforth
    · obtain ⟨x, hback, -⟩ := h.symm.grows.reach_eq_ok hreach'
      rw [hreach] at hback
      cases hback
  · obtain ⟨x', hreach', halike⟩ := h.grows.reach_eq_ok hreach
    exact .inr ⟨p, x, x', rfl, hreach', halike⟩

end InsecureLinks.FileTree
