import Mathlib
import InsecureLinks.Proofs.Scan.Visiting

/-!
# How the files of a walk are named

The files that a walk finds are named after roots that lead somewhere and after names of the tree,
so a character that is in none of these is in no root and in no path (`not_mem_of_find`).
-/

namespace InsecureLinks

/-- Whether a character is neither in the root of a file nor in its path. -/
structure SourceFile.Lacks (c : Char) (f : SourceFile) : Prop where
  root : c ∉ f.root
  relativePath : c ∉ f.relativePath

namespace Walk

/-- Whether a character is in nothing that names a file found so far. -/
def State.Lacks (c : Char) (s : State) : Prop := ∀ f ∈ s.files, f.Lacks c

variable {c : Char} {tree : FileTree} {here : Place} {included excluded : List Text}

/-! ## One root -/

theorem folder_lacks {plan : Plan} (ht : plan.tree.Lacks c) (hroot : c ∉ plan.root)
    (hslash : c ≠ '/') {fuel : ℕ} {place : Place} {names : List Text} {s s' : State}
    (hfolder : plan.tree.node? place = some .folder) (hnames : ∀ n ∈ names, c ∉ n)
    (hs : s.Lacks c) (h : folder plan fuel place names s = .ok s') : s'.Lacks c := by
  refine (folder_invariant (P := State.Lacks c) (Q := fun _ names _ => ∀ n ∈ names, c ∉ n)
    (fun _ _ _ hs => hs) ?_ (fun _ _ hs => hs) (fun _ _ _ _ _ hnames => hnames) ?_ hfolder hnames
    hs h).1
  · intro names p content u hnames _ _ hu f hf
    rcases List.mem_append.1 hf with hf | hf
    · exact hu f hf
    · obtain rfl := List.mem_singleton.1 hf
      exact ⟨hroot, not_mem_relative hslash hnames⟩
  · intro visited names p name q x hnames _ _ hname _ n hn
    rcases List.mem_append.1 hn with hn | hn
    · exact hnames n hn
    · obtain rfl := List.mem_singleton.1 hn
      obtain ⟨y, hy⟩ := FileTree.mem_names.1 hname
      exact ht _ _ hy n (by simp)

/-! ## All roots -/

/-- A character that is in no name of the tree is neither in the root nor in the path of a file that
a scan finds. -/
theorem not_mem_of_find (ht : tree.Lacks c) (hdot : c ≠ '.') (hslash : c ≠ '/')
    {roots : List Text} {found : List SourceFile} {met : List Diagnostic}
    (h : Walk.roots tree here roots included excluded = .ok (found, met)) :
    ∀ f ∈ found, f.Lacks c := by
  rw [Walk.roots, bind_eq_ok] at h
  obtain ⟨s, hs, hfound⟩ := h
  cases hfound
  refine foldlM_invariant (State.Lacks c) (fun r _ s s' hs h => ?_) (by simp [State.Lacks]) hs
  obtain ⟨place, pruned, hreach, -, hfolder⟩ := exists_of_root_eq_ok h
  have hroot : c ∉ (Path.ofText r).text :=
    ht.not_mem_of_reach hdot hslash (Path.isNormal_ofText r) hreach
  exact @folder_lacks c (planOf tree here included excluded pruned r) ht hroot hslash _ place []
    { s with visited := [] } s' (FileTree.node?_of_reach hreach) (by simp) hs hfolder

/-- A character that is in no name of the tree is in no root that can be walked. -/
theorem not_mem_root_of_find (ht : tree.Lacks c) (hdot : c ≠ '.') (hslash : c ≠ '/')
    {roots : List Text} {found : List SourceFile × List Diagnostic}
    (h : Walk.roots tree here roots included excluded = .ok found) : ∀ r ∈ roots, c ∉ r := by
  rw [Walk.roots, bind_eq_ok] at h
  obtain ⟨s, hs, -⟩ := h
  intro r hr hmem
  obtain ⟨t, t', hroot⟩ := exists_step_of_foldlM hs r hr
  obtain ⟨place, -, hreach, -⟩ := exists_of_root_eq_ok hroot
  exact ht.not_mem_of_reach hdot hslash (Path.isNormal_ofText r) hreach
    (Path.mem_text_ofText hdot hslash hmem)

end Walk

end InsecureLinks
