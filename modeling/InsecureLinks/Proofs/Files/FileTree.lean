import Mathlib
import InsecureLinks.Files.FileTree

/-!
# Sound file trees

A file tree as a disk holds it (`FileTree.IsSound`): each place is listed once, under a name that a
file can have and in a folder that is there.  The order in which the places are listed is free.
-/

namespace InsecureLinks

/-- The order of texts is the lexicographic one. -/
theorem Text.before_eq (s t : Text) : Text.before s t = decide (s < t) := by
  induction s generalizing t with
  | nil =>
    rcases t with _ | ⟨b, t⟩
    · simp [before]
    · simp [before]
  | cons a s ih =>
    rcases t with _ | ⟨b, t⟩
    · simp [before]
    · rw [before, ih]
      by_cases h : a = b
      · subst h
        simp
      · have hne : a.toNat ≠ b.toNat := fun h' => h (Char.toNat_inj.1 h')
        have hlt : a.toNat < b.toNat ↔ a < b := Iff.rfl
        rw [if_neg hne]
        simp [hlt, List.cons_lt_cons_iff, h]

namespace FileTree

/-- Whether a file can have a name. -/
structure IsName (n : Text) : Prop where
  ne_nil : n ≠ []
  ne_dot : n ≠ Path.dot
  ne_dotDot : n ≠ Path.dotDot
  no_slash : '/' ∉ n
  short : (Utf8.encode n).length ≤ maxNameBytes

theorem IsName.isNormal {n : Text} (h : IsName n) : n ≠ [] ∧ n ≠ Path.dot ∧ '/' ∉ n :=
  ⟨h.ne_nil, h.ne_dot, h.no_slash⟩

theorem isName_singleton {c : Char} (hdot : c ≠ '.') (hslash : c ≠ '/') : IsName [c] where
  ne_nil := by simp
  ne_dot := by simpa [Path.dot] using hdot
  ne_dotDot := by simp [Path.dotDot]
  no_slash := by simpa using hslash.symm
  short := by
    have hlength : (Utf8.encode [c]).length ≤ 4 := by
      rw [Utf8.encode, List.flatMap_singleton, Utf8.encodeChar]
      split_ifs <;> simp
    exact hlength.trans (by decide)

/-- Whether each place is listed once, under a possible name and in a folder. -/
structure IsSound (t : FileTree) : Prop where
  nodup : (t.nodes.map Prod.fst).Nodup
  parent : ∀ p ∈ t.nodes, ∃ place name, p.1 = place ++ [name] ∧ IsName name ∧
    t.node? place = some .folder

/-- Whether everything is under a possible name in a folder. -/
def IsRooted (t : FileTree) : Prop :=
  ∀ place name x, t.node? (place ++ [name]) = some x → IsName name ∧ t.node? place = some .folder

/-- Whether a character is in no name. -/
def Lacks (t : FileTree) (c : Char) : Prop := ∀ place x, t.node? place = some x → ∀ n ∈ place, c ∉ n

/-- Whether there are no links. -/
def IsLinkFree (t : FileTree) : Prop := ∀ place target, t.node? place ≠ some (.link target)

variable {t : FileTree}

@[simp] theorem node?_nil (t : FileTree) : t.node? [] = some .folder := rfl

theorem node?_of_ne_nil {p : Place} (h : p ≠ []) :
    t.node? p = (t.nodes.find? fun q => q.1 = p).map Prod.snd := by
  rw [node?]
  exact h

theorem mem_of_node? {p : Place} {x : Node} (h : t.node? p = some x) (hne : p ≠ []) :
    (p, x) ∈ t.nodes := by
  rw [node?_of_ne_nil hne, Option.map_eq_some_iff] at h
  obtain ⟨⟨q, y⟩, hfind, rfl⟩ := h
  obtain rfl : q = p := by simpa using List.find?_some hfind
  exact List.mem_of_find?_eq_some hfind

/-- A listed place has a node, though not the one listed there if it is listed more often. -/
theorem exists_node? {p : Place} (h : p ∈ t.nodes.map Prod.fst) : ∃ x, t.node? p = some x := by
  rcases eq_or_ne p [] with rfl | hne
  · exact ⟨_, rfl⟩
  · obtain ⟨⟨q, x⟩, hmem, rfl⟩ := List.mem_map.1 h
    rcases hfind : t.nodes.find? fun r => r.1 = q with _ | r
    · simpa using List.find?_eq_none.1 hfind _ hmem
    · exact ⟨r.2, by rw [node?_of_ne_nil hne, hfind]; rfl⟩

theorem lacks_of_nodes {c : Char} (h : ∀ p ∈ t.nodes, ∀ n ∈ p.1, c ∉ n) : t.Lacks c := by
  intro place x hx n hn
  rcases eq_or_ne place [] with rfl | hne
  · cases hn
  · exact h (place, x) (mem_of_node? hx hne) n hn

theorem isLinkFree_of_nodes (h : ∀ p ∈ t.nodes, ∀ target, p.2 ≠ .link target) : t.IsLinkFree := by
  intro place target hnode
  rcases eq_or_ne place [] with rfl | hne
  · cases hnode
  · exact h _ (mem_of_node? hnode hne) target rfl

/-! ## Names in a folder -/

/-- The name of a place in the folder `place`, if it is in there. -/
def nameIn (place p : Place) : Option Text :=
  match p.getLast? with
  | some name => if p.dropLast = place then some name else none
  | none => none

theorem nameIn_eq_some {place p : Place} {name : Text} :
    nameIn place p = some name ↔ p = place ++ [name] := by
  rw [nameIn]
  rcases List.eq_nil_or_concat p with rfl | ⟨q, n, rfl⟩
  · simp
  · simp

theorem names_eq (t : FileTree) (place : Place) :
    t.names place = ((t.nodes.map Prod.fst).filterMap (nameIn place)).mergeSort
      (fun a b => !Text.before b a) := by
  rw [List.filterMap_map]
  rfl

/-- A folder lists exactly the names under which something is in it. -/
theorem mem_names {place : Place} {name : Text} :
    name ∈ t.names place ↔ ∃ x, t.node? (place ++ [name]) = some x := by
  have hlisted : name ∈ t.names place ↔ place ++ [name] ∈ t.nodes.map Prod.fst := by
    rw [names_eq, List.mem_mergeSort, List.mem_filterMap]
    simp only [nameIn_eq_some, exists_eq_right]
  rw [hlisted]
  constructor
  · exact exists_node?
  · rintro ⟨x, hx⟩
    exact List.mem_map_of_mem (mem_of_node? hx (by simp))

theorem names_sorted (t : FileTree) (place : Place) : (t.names place).Pairwise (· ≤ ·) := by
  have le_iff (a b : Text) : (!Text.before b a) = true ↔ a ≤ b := by
    rw [Text.before_eq, Bool.not_eq_true', decide_eq_false_iff_not, not_lt]
  rw [names_eq]
  simp only [← le_iff]
  refine List.pairwise_mergeSort ?_ ?_ _
  · intro a b c hab hbc
    rw [le_iff] at hab hbc ⊢
    exact hab.trans hbc
  · intro a b
    rw [Bool.or_eq_true, le_iff, le_iff]
    exact le_total a b

theorem mem_folders {place : Place} (h : t.node? place = some .folder) : place ∈ t.folders := by
  rcases eq_or_ne place [] with rfl | hne
  · simp [folders]
  · refine List.mem_cons_of_mem _ (List.mem_filterMap.2 ⟨_, mem_of_node? h hne, ?_⟩)
    simp [isFolder]

section Sound

variable (ht : t.IsSound)

include ht

/-- A folder lists its names in order, each once. -/
theorem IsSound.names_pairwise (place : Place) : (t.names place).Pairwise (· < ·) := by
  have hnodup : (t.names place).Nodup := by
    rw [names_eq, (List.mergeSort_perm _ _).nodup_iff]
    refine ht.nodup.filterMap fun p q n hp hq => ?_
    rw [nameIn_eq_some.1 hp, nameIn_eq_some.1 hq]
  exact ((names_sorted t place).and hnodup).imp fun h => lt_of_le_of_ne h.1 h.2

/-- What stands above something is a folder. -/
theorem IsSound.folder_of_append {p q : Place} {x : Node} (h : t.node? (p ++ q) = some x)
    (hq : q ≠ []) : t.node? p = some .folder := by
  induction q using List.reverseRecOn generalizing x with
  | nil => exact absurd rfl hq
  | append_singleton q n ih =>
    rw [← List.append_assoc] at h
    obtain ⟨place, name, hplace, -, hfolder⟩ := ht.parent _ (mem_of_node? h (by simp))
    obtain ⟨rfl, -⟩ := List.append_inj' hplace rfl
    rcases eq_or_ne q [] with rfl | hne
    · simpa using hfolder
    · exact ih hfolder hne

theorem IsSound.isName {p : Place} {x : Node} (h : t.node? p = some x) : ∀ n ∈ p, IsName n := by
  induction p using List.reverseRecOn generalizing x with
  | nil => simp
  | append_singleton p n ih =>
    obtain ⟨place, name, hplace, hname, hfolder⟩ := ht.parent _ (mem_of_node? h (by simp))
    obtain ⟨rfl, rfl⟩ : p = place ∧ n = name := by simpa using hplace
    intro m hm
    rcases List.mem_append.1 hm with hm | hm
    · exact ih hfolder m hm
    · rwa [List.mem_singleton.1 hm]

theorem IsSound.isRooted : t.IsRooted := fun _ name _ h =>
  ⟨ht.isName h name (by simp), ht.folder_of_append h (by simp)⟩

/-- The way to a folder leads through fewer folders than there are. -/
theorem IsSound.length_lt_folders {p l : Place} (h : t.node? (p ++ l) = some .folder) :
    l.length < t.folders.length := by
  have hfolder : ∀ k ≤ l.length, t.node? (p ++ l.take k) = some .folder := by
    intro k hk
    rcases Nat.eq_or_lt_of_le hk with rfl | hlt
    · rwa [List.take_length]
    · rw [← List.take_append_drop k l, ← List.append_assoc] at h
      exact ht.folder_of_append h (by simpa using hlt)
  -- The folders on the way have different lengths.
  let way := (List.range (l.length + 1)).map fun k => p ++ l.take k
  have hnodup : way.Nodup := by
    refine List.Nodup.of_map List.length ?_
    have hlengths : way.map List.length = (List.range (l.length + 1)).map (p.length + ·) := by
      rw [List.map_map]
      refine List.map_congr_left fun k hk => ?_
      have hk' := List.mem_range.1 hk
      simp only [Function.comp_apply, List.length_append, List.length_take]
      omega
    rw [hlengths]
    exact (List.nodup_range).map fun a b hab => by simpa using hab
  have hsub : way ⊆ t.folders := by
    intro q hq
    obtain ⟨k, hk, rfl⟩ := List.mem_map.1 hq
    exact mem_folders (hfolder k (Nat.lt_succ_iff.1 (List.mem_range.1 hk)))
  have hlength := (hnodup.subperm hsub).length_le
  simpa [way] using hlength

end Sound

/-! ## Changing a tree -/

theorem put_eq (t : FileTree) (place : Place) (x : Node) :
    t.put place x =
      if t.nodes.any fun q => q.1 = place then
        { t with nodes := t.nodes.map fun q => if q.1 = place then (q.1, x) else q }
      else { t with nodes := t.nodes ++ [(place, x)] } := rfl

@[simp] theorem put_unlistable (t : FileTree) (place : Place) (x : Node) :
    (t.put place x).unlistable = t.unlistable := by
  rw [put]
  split_ifs
  · rfl
  · rfl

@[simp] theorem put_unreadable (t : FileTree) (place : Place) (x : Node) :
    (t.put place x).unreadable = t.unreadable := by
  rw [put]
  split_ifs
  · rfl
  · rfl

theorem find?_map_of_fst {f : Place × Node → Place × Node} (hf : ∀ q, (f q).1 = q.1)
    (nodes : List (Place × Node)) (p : Place) :
    (nodes.map f).find? (fun q => q.1 = p) = (nodes.find? fun q => q.1 = p).map f := by
  rw [List.find?_map]
  congr 2
  funext q
  simp only [Function.comp_apply, hf]

/-- At the top is a folder and no file. -/
theorem ne_nil_of_file {t : FileTree} {place : Place} {c : Content}
    (h : t.node? place = some (.file c)) : place ≠ [] := by
  rintro rfl
  cases h

/-- A tree with a new node at a place has its old nodes at all others. -/
theorem node?_put (t : FileTree) {place : Place} (hne : place ≠ []) (x : Node) (p : Place) :
    (t.put place x).node? p = if p = place then some x else t.node? p := by
  rcases eq_or_ne p [] with rfl | hp
  · rw [node?_nil, node?_nil, if_neg hne.symm]
  rw [node?_of_ne_nil hp, node?_of_ne_nil hp, put_eq]
  by_cases hany : t.nodes.any (fun q => decide (q.1 = place)) = true
  · -- The place is listed, and its node is exchanged there.
    rw [if_pos hany, find?_map_of_fst (fun q => by split <;> rfl)]
    rcases hfind : t.nodes.find? fun q => decide (q.1 = p) with _ | ⟨q, n⟩
    · have hp' : p ≠ place := by
        rintro rfl
        obtain ⟨q, hq, hqp⟩ := List.any_eq_true.1 hany
        exact List.find?_eq_none.1 hfind q hq hqp
      rw [if_neg hp', hfind]
      rfl
    · rw [hfind]
      obtain rfl : q = p := by simpa using List.find?_some hfind
      by_cases hplace : q = place
      · simp [hplace]
      · simp [hplace]
  · rw [if_neg hany, List.find?_append]
    by_cases hplace : p = place
    · subst hplace
      have hnone : t.nodes.find? (fun q => decide (q.1 = p)) = none := by
        rw [List.find?_eq_none]
        intro q hq hqp
        exact hany (List.any_eq_true.2 ⟨q, hq, hqp⟩)
      simp [hnone]
    · rw [List.find?_cons_of_neg (by simpa using Ne.symm hplace)]
      simp [hplace]

/-- Of two nodes that are put at one place, the first leaves no trace. -/
theorem put_put (t : FileTree) (place : Place) (x y : Node) :
    (t.put place x).put place y = t.put place y := by
  rw [put_eq t place x, put_eq t place y]
  by_cases hany : t.nodes.any (fun q => decide (q.1 = place)) = true
  · -- Both are exchanged for what is listed.
    rw [if_pos hany, if_pos hany, put_eq]
    have hstill : (t.nodes.map fun q => if q.1 = place then (q.1, x) else q).any
        (fun q => decide (q.1 = place)) = true := by
      obtain ⟨q, hq, hplace⟩ := List.any_eq_true.1 hany
      refine List.any_eq_true.2 ⟨(q.1, x), List.mem_map.2 ⟨q, hq, ?_⟩, hplace⟩
      rw [if_pos (of_decide_eq_true hplace)]
    rw [if_pos hstill]
    congr 1
    rw [List.map_map]
    refine List.map_congr_left fun q _ => ?_
    by_cases hq : q.1 = place
    · simp [hq]
    · simp [hq]
  · -- The first is listed at the end, where the second is exchanged for it.
    rw [if_neg hany, if_neg hany, put_eq, if_pos (by simp)]
    congr 1
    rw [List.map_append, List.map_singleton, if_pos rfl]
    congr 1
    refine (List.map_congr_left fun q hq => if_neg fun hplace => ?_).trans (List.map_id _)
    exact hany (List.any_eq_true.2 ⟨q, hq, decide_eq_true hplace⟩)

theorem Lacks.put {c : Char} (h : t.Lacks c) {place : Place} (hne : place ≠ [])
    (hplace : ∀ n ∈ place, c ∉ n) (x : Node) : (t.put place x).Lacks c := by
  intro p y hp
  rw [node?_put t hne] at hp
  split_ifs at hp with heq
  · exact heq ▸ hplace
  · exact h p y hp

end FileTree

end InsecureLinks
