import Mathlib
import InsecureLinks.Proofs.Scan.Gather

/-!
# Where the files of a walk are

In a tree without links every file that a walk finds is at the place that its path spells out
(`exists_content_of_mem_found`), and if no root is in the folder of another, no two of them are at the
same place (`nodup_places`).
-/

namespace InsecureLinks

/-- The place that a file's path spells out. -/
def SourceFile.place (here : Place) (f : SourceFile) : Place := FileTree.routeOf here f.path

namespace Walk

open FileTree

/-- Whether the folders of two roots are different, and neither is in the other. -/
def Apart (here : Place) (r r' : Text) : Prop :=
  ¬routeOf here (Path.ofText r) <+: routeOf here (Path.ofText r') ∧
    ¬routeOf here (Path.ofText r') <+: routeOf here (Path.ofText r)

section Place

variable {tree : FileTree} {here place : Place} {included excluded : List Text} {written : Text}
  {pruned : List (List Glob.Token)}

theorem path_fileAt (l : List Text) :
    (fileAt (planOf tree here included excluded pruned written) l).path =
      (Path.ofText written).join (relative l) := by
  rw [SourceFile.path, fileAt, planOf_root, Path.ofText_text (Path.isNormal_ofText written)]

theorem place_fileAt {l : List Text} (h : ∀ n ∈ l, IsName n) :
    (fileAt (planOf tree here included excluded pruned written) l).place here =
      routeOf here (Path.ofText written) ++ l := by
  have hnames : ∀ n ∈ l, n ≠ [] ∧ n ≠ Path.dot ∧ '/' ∉ n := fun n hn => (h n hn).isNormal
  have habsolute : ∀ ns : List Text,
      (⟨(Path.ofText written).start, ns⟩ : Path).isAbsolute = (Path.ofText written).isAbsolute :=
    fun _ => rfl
  rw [SourceFile.place, path_fileAt, relative, Path.join_names _ hnames, routeOf, habsolute, routeFrom,
    List.foldl_append, ← routeFrom, ← routeFrom, routeFrom_of_names fun n hn => (h n hn).ne_dotDot]
  rfl

variable (ht : tree.IsSound) (hlinks : tree.IsLinkFree)

include ht hlinks

/-- The files of a root are at the places of the names that are gathered beneath it. -/
theorem exists_names_of_gathers {part : List SourceFile × List Diagnostic}
    (h : Gathers tree here included excluded written part) :
    ∃ ls : List (List Text), ls.Nodup ∧
      part.1.map (SourceFile.place here) =
        ls.map (routeOf here (Path.ofText written) ++ ·) ∧
      ∀ f ∈ part.1, ∃ content, tree.node? (f.place here) = some (.file content) ∧
        tree.reach here f.path.text =
          if maxPathBytes < (Utf8.encode f.path.text).length then .error .nameTooLong
          else .ok (f.place here, .file content) := by
  obtain ⟨place, pruned, hreach, -, hfiles, -⟩ := h
  have hnormal := Path.isNormal_ofText written
  obtain ⟨rfl, hplace⟩ := hlinks.place_of_reach hnormal hreach
  let plan := planOf tree here included excluded pruned written
  let ls := gather plan (routeOf here (Path.ofText written)) (keepSelected plan)
    (tree.folders.length + 1) []
  have hfile : ∀ l ∈ ls, ∃ content,
      tree.node? (routeOf here (Path.ofText written) ++ l) = some (.file content) := by
    intro l hl
    have hmem := @mem_gather plan _ (keepSelected plan) [] l ht (tree.folders.length + 1)
      (by rwa [List.append_nil]) (Nat.lt_succ_self _)
    obtain ⟨-, x, hx, hkeep⟩ := hmem.1 hl
    rw [keepSelected, Bool.and_eq_true] at hkeep
    cases x with
    | file content => exact ⟨content, hx⟩
    | folder | link | pipe => cases hkeep.1
  have hnames : ∀ l ∈ ls, ∀ n ∈ l, IsName n := by
    intro l hl n hn
    obtain ⟨content, hcontent⟩ := hfile l hl
    exact ht.isName hcontent n (List.mem_append_right _ hn)
  refine ⟨ls, (gather_pairwise ht _ _).imp ne_of_lt, ?_, ?_⟩
  · rw [hfiles, List.map_map]
    exact List.map_congr_left fun l hl => place_fileAt (hnames l hl)
  · intro f hf
    rw [hfiles] at hf
    obtain ⟨l, hl, rfl⟩ := List.mem_map.1 hf
    obtain ⟨content, hcontent⟩ := hfile l hl
    refine ⟨content, ?_, ?_⟩
    · rwa [place_fileAt (hnames l hl)]
    · rw [place_fileAt (hnames l hl), path_fileAt, relative]
      exact hlinks.reach_beneath hnormal ht hreach hcontent

omit ht hlinks in
theorem exists_of_mem_parts {R : Text → List SourceFile × List Diagnostic → Prop} {rs : List Text}
    {parts : List (List SourceFile × List Diagnostic)} (h : List.Forall₂ R rs parts)
    {part : List SourceFile × List Diagnostic} (hpart : part ∈ parts) : ∃ r ∈ rs, R r part := by
  induction h with
  | nil => cases hpart
  | cons hr _ ih =>
    rcases List.mem_cons.1 hpart with rfl | hpart
    · exact ⟨_, List.mem_cons_self .., hr⟩
    · obtain ⟨r, hmem, hr⟩ := ih hpart
      exact ⟨r, List.mem_cons_of_mem _ hmem, hr⟩

/-- The files of a root are beneath its folder. -/
theorem prefix_of_gathers {part : List SourceFile × List Diagnostic}
    (h : Gathers tree here included excluded written part) {p : Place}
    (hp : p ∈ part.1.map (SourceFile.place here)) : routeOf here (Path.ofText written) <+: p := by
  obtain ⟨ls, -, hplaces, -⟩ := exists_names_of_gathers ht hlinks h
  rw [hplaces] at hp
  obtain ⟨l, -, rfl⟩ := List.mem_map.1 hp
  exact List.prefix_append _ _

section Found

variable {roots : List Text} {found : List SourceFile} {met : List Diagnostic}
  (hfound : Walk.roots tree here roots included excluded = .ok (found, met))

include hfound

/-- A file that a walk finds is there, and its path leads to it unless it is too long. -/
theorem exists_content_of_mem_found {f : SourceFile} (hf : f ∈ found) :
    ∃ content, tree.node? (f.place here) = some (.file content) ∧
      tree.reach here f.path.text =
        if maxPathBytes < (Utf8.encode f.path.text).length then .error .nameTooLong
        else .ok (f.place here, .file content) := by
  obtain ⟨parts, hparts, rfl, -⟩ := roots_gather ht hlinks hfound
  obtain ⟨part, hpart, hf⟩ := List.mem_flatMap.1 hf
  obtain ⟨r, -, hgathers⟩ := exists_of_mem_parts hparts hpart
  obtain ⟨ls, -, -, hfiles⟩ := exists_names_of_gathers ht hlinks hgathers
  exact hfiles f hf

/-- No two files that a walk finds are at the same place if the roots are apart. -/
theorem nodup_places (hapart : roots.Pairwise (Apart here)) :
    (found.map (SourceFile.place here)).Nodup := by
  obtain ⟨parts, hparts, rfl, -⟩ := roots_gather ht hlinks hfound
  clear hfound
  induction hparts with
  | nil => exact List.nodup_nil
  | @cons r part rs parts hpart hparts ih =>
    obtain ⟨hr, hapart⟩ := List.pairwise_cons.1 hapart
    obtain ⟨ls, hls, hplaces, -⟩ := exists_names_of_gathers ht hlinks hpart
    rw [List.flatMap_cons, List.map_append, List.nodup_append]
    refine ⟨?_, ih hapart, ?_⟩
    · rw [hplaces]
      exact hls.map fun l l' h => List.append_cancel_left h
    · -- Files of two roots are beneath two folders of which neither is in the other.
      rintro p hp q hq rfl
      rw [List.map_flatMap] at hq
      obtain ⟨part', hpart', hq⟩ := List.mem_flatMap.1 hq
      obtain ⟨r', hr', hgathers⟩ := exists_of_mem_parts hparts hpart'
      have hprefix := prefix_of_gathers ht hlinks hpart hp
      have hprefix' := prefix_of_gathers ht hlinks hgathers hq
      rcases List.prefix_or_prefix_of_prefix hprefix hprefix' with h | h
      · exact (hr r' hr').1 h
      · exact (hr r' hr').2 h

end Found

end Place

end Walk

end InsecureLinks
