import Mathlib
import InsecureLinks.Grouping

/-!
# What groups hold

A group holds the elements of the list that have its key, in the order of the list (`get_of`), and
there is one for each key (`of_eq_map`).  So the groups are the list, cut up by keys and nothing else
(`isPartition_of`), and what the first groups hold makes just these (`of_filter_keys`).
Where the list is made of blocks, each with one key and no two with the same, the groups are the
blocks that are not empty (`of_flatMap`).
-/

namespace InsecureLinks.Groups

variable {κ α β : Type} [DecidableEq κ]

theorem get_add (key k : κ) (x : α) (groups : Groups κ α) :
    get k (add key x groups) = get k groups ++ if key = k then [x] else [] := by
  induction groups with
  | nil => simp [add, get]
  | cons g rest ih =>
    obtain ⟨k', xs⟩ := g
    by_cases hkey : k' = key
    · subst hkey
      by_cases hk : k' = k
      · simp [add, get, hk]
      · simp [add, get, hk]
    · by_cases hk : k' = k
      · subst hk
        simp [add, get, hkey, Ne.symm hkey]
      · simp [add, get, hkey, hk, ih]

theorem of_append (key : α → κ) (xs ys : List α) :
    of key (xs ++ ys) = ys.foldl (fun groups x => add (key x) x groups) (of key xs) := by
  rw [of, List.foldl_append]
  rfl

theorem of_concat (key : α → κ) (xs : List α) (x : α) :
    of key (xs ++ [x]) = add (key x) x (of key xs) := of_append key xs [x]

/-- The group of a key holds the elements with that key, in order. -/
theorem get_of (key : α → κ) (k : κ) (xs : List α) :
    get k (of key xs) = xs.filter fun x => key x = k := by
  induction xs using List.reverseRecOn with
  | nil => rfl
  | append_singleton xs x ih =>
    rw [of_concat, get_add, ih, List.filter_append]
    by_cases h : key x = k
    · simp [h]
    · simp [h]

theorem of_eq_nil_iff (key : α → κ) (xs : List α) : of key xs = [] ↔ xs = [] := by
  constructor
  · intro h
    rcases xs with _ | ⟨x, xs⟩
    · rfl
    · have hget := get_of key (key x) (x :: xs)
      rw [h, List.filter_cons_of_pos (by simp)] at hget
      cases hget
  · rintro rfl
    rfl

theorem get_map {f : α → β} (k : κ) (groups : Groups κ α) :
    get k (groups.map fun g => (g.1, g.2.map f)) = (get k groups).map f := by
  induction groups with
  | nil => rfl
  | cons g rest ih =>
    rw [List.map_cons, get, get, ih]
    split_ifs
    · rfl
    · rfl

/-! ## Keys -/

theorem add_of_not_mem {k : κ} (x : α) {groups : Groups κ α} (h : k ∉ groups.map Prod.fst) :
    add k x groups = groups ++ [(k, [x])] := by
  induction groups with
  | nil => rfl
  | cons g rest ih =>
    simp only [List.map_cons, List.mem_cons, not_or] at h
    rw [add, if_neg (Ne.symm h.1), ih h.2]
    rfl

theorem map_fst_add_of_mem {k : κ} (x : α) {groups : Groups κ α} (h : k ∈ groups.map Prod.fst) :
    (add k x groups).map Prod.fst = groups.map Prod.fst := by
  induction groups with
  | nil => cases h
  | cons g rest ih =>
    rw [add]
    by_cases hkey : g.1 = k
    · simp [hkey]
    · rw [if_neg hkey, List.map_cons, List.map_cons, ih]
      simpa [Ne.symm hkey] using h

theorem mem_keys_of {key : α → κ} {xs : List α} {k : κ} :
    k ∈ (of key xs).map Prod.fst ↔ ∃ x ∈ xs, key x = k := by
  induction xs using List.reverseRecOn with
  | nil => simp [of]
  | append_singleton xs x ih =>
    simp only [List.mem_append, List.mem_singleton, or_and_right, exists_or, exists_eq_left, ← ih]
    rw [of_concat]
    by_cases hmem : key x ∈ (of key xs).map Prod.fst
    · rw [map_fst_add_of_mem x hmem]
      exact (or_iff_left_of_imp fun h => h ▸ hmem).symm
    · rw [add_of_not_mem x hmem, List.map_append, List.mem_append, List.map_singleton,
        List.mem_singleton, eq_comm (a := k)]

/-- No two groups have the same key. -/
theorem nodup_keys_of (key : α → κ) (xs : List α) : ((of key xs).map Prod.fst).Nodup := by
  induction xs using List.reverseRecOn with
  | nil => exact List.nodup_nil
  | append_singleton xs x ih =>
    rw [of_concat]
    by_cases hmem : key x ∈ (of key xs).map Prod.fst
    · rw [map_fst_add_of_mem x hmem]
      exact ih
    · rw [add_of_not_mem x hmem, List.map_append]
      exact ih.append (List.nodup_singleton _) (List.disjoint_singleton.2 hmem)

theorem get_of_mem {k : κ} {xs : List α} {groups : Groups κ α}
    (hnodup : (groups.map Prod.fst).Nodup) (h : (k, xs) ∈ groups) : get k groups = xs := by
  induction groups with
  | nil => cases h
  | cons g rest ih =>
    obtain ⟨hnew, hnodup⟩ := List.nodup_cons.1 hnodup
    rcases List.mem_cons.1 h with rfl | h
    · rw [get, if_pos rfl]
    · have hne : g.1 ≠ k := by
        rintro rfl
        exact hnew (List.mem_map.2 ⟨_, h, rfl⟩)
      rw [get, if_neg hne]
      exact ih hnodup h

theorem get_of_not_mem {k : κ} {groups : Groups κ α} (h : k ∉ groups.map Prod.fst) :
    get k groups = [] := by
  induction groups with
  | nil => rfl
  | cons g rest ih =>
    simp only [List.map_cons, List.mem_cons, not_or] at h
    rw [get, if_neg (Ne.symm h.1), ih h.2]

/-- A group is all that has its key. -/
theorem eq_filter_of_mem {key : α → κ} {xs ys : List α} {k : κ} (h : (k, ys) ∈ of key xs) :
    ys = xs.filter fun x => key x = k := by
  rw [← get_of, get_of_mem (nodup_keys_of key xs) h]

theorem mem_group_iff {key : α → κ} {xs : List α} {g : κ × List α} (hg : g ∈ of key xs) {x : α} :
    x ∈ g.2 ↔ x ∈ xs ∧ key x = g.1 := by
  rw [eq_filter_of_mem hg, List.mem_filter, decide_eq_true_iff]

/-- Every element is in a group. -/
theorem exists_group_of_mem (key : α → κ) {xs : List α} {x : α} (hx : x ∈ xs) :
    ∃ g ∈ of key xs, g.1 = key x ∧ x ∈ g.2 := by
  have hmem : key x ∈ (of key xs).map Prod.fst := mem_keys_of.2 ⟨x, hx, rfl⟩
  obtain ⟨g, hg, hkey⟩ := List.mem_map.1 hmem
  exact ⟨g, hg, hkey, (mem_group_iff hg).2 ⟨hx, hkey.symm⟩⟩

/-- The keys come in the order in which they first appear. -/
theorem keys_of [BEq κ] [LawfulBEq κ] (key : α → κ) (xs : List α) :
    (of key xs).map Prod.fst = (xs.map key).eraseDups := by
  induction xs using List.reverseRecOn with
  | nil => rfl
  | append_singleton xs x ih =>
    rw [of_concat, List.map_append, List.map_singleton, List.eraseDups_append, ← ih,
      List.removeAll]
    by_cases hmem : key x ∈ xs.map key
    · rw [map_fst_add_of_mem x (mem_keys_of.2 (List.mem_map.1 hmem)),
        List.filter_cons_of_neg (by simpa using List.mem_map.1 hmem)]
      simp
    · rw [add_of_not_mem x (mt mem_keys_of.1 (mt List.mem_map.2 hmem)),
        List.filter_cons_of_pos (by simpa using mt List.mem_map.2 hmem), List.map_append]
      simp [List.eraseDups_cons]

/-- The groups are all that has each of the keys. -/
theorem of_eq_map [BEq κ] [LawfulBEq κ] (key : α → κ) (xs : List α) :
    of key xs = (xs.map key).eraseDups.map fun k => (k, xs.filter fun x => key x = k) := by
  rw [← keys_of, List.map_map]
  refine (List.map_id _).symm.trans (List.map_congr_left fun g hg => ?_)
  rw [id, Function.comp_apply, ← eq_filter_of_mem (show (g.1, g.2) ∈ of key xs from hg)]

/-! ## Some of the keys -/

theorem filter_add (keep : κ → Bool) (k : κ) (x : α) (groups : Groups κ α) :
    (add k x groups).filter (fun g => keep g.1) =
      if keep k = true then add k x (groups.filter fun g => keep g.1)
      else groups.filter fun g => keep g.1 := by
  induction groups with
  | nil => simp [add, List.filter_cons]
  | cons g rest ih =>
    obtain ⟨k', xs⟩ := g
    by_cases hkey : k' = k
    · subst hkey
      by_cases hkeep : keep k' = true
      · simp [add, hkeep]
      · simp [add, hkeep]
    · rw [add, if_neg hkey, List.filter_cons, List.filter_cons, ih]
      by_cases hkeep : keep k' = true
      · rw [if_pos hkeep, if_pos hkeep, add, if_neg hkey]
        split_ifs
        · rfl
        · rfl
      · rw [if_neg hkeep, if_neg hkeep]

/-- The elements with some of the keys make the groups of these keys. -/
theorem of_filter (key : α → κ) (keep : κ → Bool) (xs : List α) :
    of key (xs.filter fun x => keep (key x)) = (of key xs).filter fun g => keep g.1 := by
  induction xs using List.reverseRecOn with
  | nil => rfl
  | append_singleton xs x ih =>
    rw [of_concat, filter_add, List.filter_append, List.filter_cons, List.filter_nil]
    by_cases hkeep : keep (key x) = true
    · rw [if_pos hkeep, if_pos hkeep, of_concat, ih]
    · rw [if_neg hkeep, if_neg hkeep, List.append_nil, ih]

/-- The elements with the keys of the first groups make these groups. -/
theorem of_filter_keys {key : α → κ} {keep : κ → Bool} {xs : List α} {before after : Groups κ α}
    (h : of key xs = before ++ after) (hkeep : ∀ k, keep k = true ↔ k ∈ before.map Prod.fst) :
    of key (xs.filter fun x => keep (key x)) = before := by
  have hnodup := nodup_keys_of key xs
  rw [h, List.map_append, List.nodup_append] at hnodup
  rw [of_filter, h, List.filter_append]
  have hbefore : before.filter (fun g => keep g.1) = before :=
    List.filter_eq_self.2 fun g hg => (hkeep g.1).2 (List.mem_map_of_mem hg)
  have hafter : after.filter (fun g => keep g.1) = [] := by
    refine List.filter_eq_nil_iff.2 fun g hg hkept => ?_
    exact hnodup.2.2 _ ((hkeep g.1).1 hkept) _ (List.mem_map_of_mem hg) rfl
  rw [hbefore, hafter, List.append_nil]

/-! ## The whole list -/

/-- Whether groups are a list cut up by keys: there is one for each key, in the order in which the
keys first appear, with the elements that have the key in their order, and together they have every
element as often as the list. -/
structure IsPartition (key : α → κ) (xs : List α) (groups : Groups κ α) : Prop where
  nodup : (groups.map Prod.fst).Nodup
  mem_keys : ∀ k, k ∈ groups.map Prod.fst ↔ k ∈ xs.map key
  ordered : (groups.map Prod.fst).Pairwise fun k k' => (xs.map key).idxOf k < (xs.map key).idxOf k'
  group : ∀ g ∈ groups, g.2 = xs.filter fun x => key x = g.1
  perm : (groups.flatMap Prod.snd).Perm xs

/-- One key comes before another if it appears before it. -/
theorem pairwise_keys_of (key : α → κ) (xs : List α) :
    ((of key xs).map Prod.fst).Pairwise fun k k' => (xs.map key).idxOf k < (xs.map key).idxOf k' := by
  induction xs using List.reverseRecOn with
  | nil => exact List.Pairwise.nil
  | append_singleton xs x ih =>
    -- Where the keys appear first does not depend on what comes after.
    have hmem : ∀ k ∈ (of key xs).map Prod.fst, k ∈ xs.map key := fun k hk =>
      List.mem_map.2 (mem_keys_of.1 hk)
    have hsame : ∀ k ∈ (of key xs).map Prod.fst,
        ((xs ++ [x]).map key).idxOf k = (xs.map key).idxOf k := by
      intro k hk
      rw [List.map_append, List.idxOf_append_of_mem (hmem k hk)]
    have hkept : ((of key xs).map Prod.fst).Pairwise fun k k' =>
        ((xs ++ [x]).map key).idxOf k < ((xs ++ [x]).map key).idxOf k' := by
      refine ih.imp_of_mem fun {k k'} hk hk' hlt => ?_
      rwa [hsame k hk, hsame k' hk']
    rw [of_concat]
    by_cases hx : key x ∈ (of key xs).map Prod.fst
    · rw [map_fst_add_of_mem x hx]
      exact hkept
    · have hnew : key x ∉ xs.map key := mt (fun h => mem_keys_of.2 (List.mem_map.1 h)) hx
      have hlast : ((xs ++ [x]).map key).idxOf (key x) = xs.length := by
        rw [List.map_append, List.idxOf_append_of_notMem hnew]
        simp
      have hkeys : (of key xs ++ [(key x, [x])]).map Prod.fst =
          (of key xs).map Prod.fst ++ [key x] := List.map_append
      rw [add_of_not_mem x hx, hkeys, List.pairwise_append]
      refine ⟨hkept, List.pairwise_singleton _ _, fun k hk k' hk' => ?_⟩
      obtain rfl := List.mem_singleton.1 hk'
      have hlt := List.idxOf_lt_length_iff.2 (hmem k hk)
      rw [List.length_map] at hlt
      rwa [hsame k hk, hlast]

theorem perm_flatMap_add (k : κ) (x : α) (groups : Groups κ α) :
    ((add k x groups).flatMap Prod.snd).Perm (groups.flatMap Prod.snd ++ [x]) := by
  induction groups with
  | nil => exact List.Perm.refl _
  | cons g rest ih =>
    rw [add]
    split_ifs
    · rw [List.flatMap_cons, List.flatMap_cons, List.append_assoc, List.append_assoc]
      exact List.perm_append_comm.append_left g.2
    · rw [List.flatMap_cons, List.flatMap_cons, List.append_assoc]
      exact ih.append_left g.2

/-- Nothing is lost and nothing comes twice. -/
theorem perm_flatMap_of (key : α → κ) (xs : List α) :
    ((of key xs).flatMap Prod.snd).Perm xs := by
  induction xs using List.reverseRecOn with
  | nil => exact List.Perm.refl _
  | append_singleton xs x ih =>
    rw [of_concat]
    exact (perm_flatMap_add _ x _).trans (ih.append_right [x])

/-- Grouping a list cuts it up by the keys. -/
theorem isPartition_of (key : α → κ) (xs : List α) : IsPartition key xs (of key xs) where
  nodup := nodup_keys_of key xs
  mem_keys _ := mem_keys_of.trans List.mem_map.symm
  ordered := pairwise_keys_of key xs
  group _ hg := eq_filter_of_mem hg
  perm := perm_flatMap_of key xs

section IsPartition

variable {key : α → κ} {xs : List α} {groups : Groups κ α} (h : IsPartition key xs groups)

include h

/-- There are as many groups as there are different keys. -/
theorem IsPartition.length_eq : groups.length = (xs.map key).toFinset.card := by
  rw [← List.length_map (f := Prod.fst), ← List.toFinset_card_of_nodup h.nodup]
  congr 1
  ext k
  rw [List.mem_toFinset, List.mem_toFinset, h.mem_keys]

theorem IsPartition.sum_length : (groups.map fun g => g.2.length).sum = xs.length := by
  rw [← h.perm.length_eq, List.length_flatMap]

end IsPartition

/-! ## Blocks -/

theorem add_concat {k : κ} (x : α) (xs : List α) {groups : Groups κ α}
    (h : k ∉ groups.map Prod.fst) :
    add k x (groups ++ [(k, xs)]) = groups ++ [(k, xs ++ [x])] := by
  induction groups with
  | nil => simp [add]
  | cons g rest ih =>
    simp only [List.map_cons, List.mem_cons, not_or] at h
    rw [List.cons_append, add, if_neg (Ne.symm h.1), ih h.2]
    rfl

/-- Adding a block whose key is new makes one new group. -/
theorem foldl_add_block {key : α → κ} {k : κ} {groups : Groups κ α} {block : List α}
    (hkey : ∀ x ∈ block, key x = k) (hnew : k ∉ groups.map Prod.fst) (hne : block ≠ []) :
    block.foldl (fun gs x => add (key x) x gs) groups = groups ++ [(k, block)] := by
  induction block using List.reverseRecOn with
  | nil => exact absurd rfl hne
  | append_singleton block x ih =>
    rw [List.foldl_append, List.foldl_cons, List.foldl_nil, hkey x (by simp)]
    rcases eq_or_ne block [] with rfl | hblock
    · exact add_of_not_mem x hnew
    · rw [ih (fun y hy => hkey y (List.mem_append_left _ hy)) hblock]
      exact add_concat x block hnew

/-- Blocks with different keys are kept apart, and the empty ones leave no group. -/
theorem of_flatMap {key : α → κ} {name : β → κ} {block : β → List α} {bs : List β}
    (hkey : ∀ b ∈ bs, ∀ x ∈ block b, key x = name b) (hnodup : (bs.map name).Nodup) :
    of key (bs.flatMap block) =
      (bs.filter fun b => !(block b).isEmpty).map fun b => (name b, block b) := by
  induction bs using List.reverseRecOn with
  | nil => rfl
  | append_singleton bs b ih =>
    rw [List.map_append, List.nodup_append] at hnodup
    obtain ⟨hbs, -, hdisjoint⟩ := hnodup
    have ih := ih (fun b hb => hkey b (List.mem_append_left _ hb)) hbs
    rw [List.flatMap_append, of_append, ih, List.filter_append, List.map_append]
    rcases hb : block b with _ | ⟨x, xs⟩
    · simp [hb]
    · rw [List.flatMap_singleton, foldl_add_block (k := name b)]
      · simp [hb]
      · exact hkey b (by simp)
      · intro hmem
        simp only [List.mem_map, List.mem_filter] at hmem
        obtain ⟨-, ⟨b', ⟨hb', -⟩, rfl⟩, hname⟩ := hmem
        exact hdisjoint _ (List.mem_map_of_mem hb') _ (by simp) hname
      · simp [hb]

end InsecureLinks.Groups
