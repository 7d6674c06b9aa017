import Mathlib
import InsecureLinks.Replace
import InsecureLinks.Scan.Walk

/-!
# From file to file

Going through groups visits one file after another, each visit leaving the tree to the next (`Visits`).
It comes to the last group unless a visit fails, and ends there with what the visits before have left
(`inGroups_outcome`).
-/

namespace InsecureLinks

/-! ## What one file adds -/

/-- What was changed, with `n` links in the file at one more path. -/
def Replaced.add (path : Text) (n : ℕ) (r : Replaced) : Replaced :=
  if n = 0 then r else ⟨path :: r.filesChanged, n + r.replacements⟩

namespace Replace

/-- The path to the file of a group. -/
abbrev groupPath (g : (Text × Text) × List Violation) : Path := SourceFile.path ⟨g.1.1, g.1.2⟩

variable {dryRun : Bool} {here : Place} {tree tree₁ tree₂ : FileTree}
  {g : (Text × Text) × List Violation} {gs : Groups (Text × Text) Violation} {n : ℕ} {r : Replaced}

theorem inGroups_cons (hfile : inFile dryRun here (groupPath g) g.2 tree = .ok (tree₁, n))
    (hrest : inGroups dryRun here tree₁ gs = (tree₂, .ok r)) :
    inGroups dryRun here tree (g :: gs) = (tree₂, .ok (r.add (groupPath g).text n)) := by
  obtain ⟨⟨root, filePath⟩, vs⟩ := g
  rw [groupPath, SourceFile.path] at hfile ⊢
  rw [inGroups, hfile]
  dsimp only
  rw [hrest]
  dsimp only
  rw [Replaced.add]
  split_ifs
  · rfl
  · rfl

/-! ## Visits -/

/-- Whether the files of some groups are visited one after another, each with so many links. -/
inductive Visits (dryRun : Bool) (here : Place) :
    FileTree → Groups (Text × Text) Violation → List ℕ → FileTree → Prop
  | nil (tree : FileTree) : Visits dryRun here tree [] [] tree
  | cons {tree tree₁ tree₂ : FileTree} {g : (Text × Text) × List Violation}
      {gs : Groups (Text × Text) Violation} {n : ℕ} {ns : List ℕ}
      (first : inFile dryRun here (groupPath g) g.2 tree = .ok (tree₁, n))
      (rest : Visits dryRun here tree₁ gs ns tree₂) :
      Visits dryRun here tree (g :: gs) (n :: ns) tree₂

/-- What visits come to. -/
def summarize (gs : Groups (Text × Text) Violation) (ns : List ℕ) : Replaced :=
  (gs.zip ns).foldr (fun visit r => r.add (groupPath visit.1).text visit.2) ⟨[], 0⟩

section Visits

variable {ns : List ℕ}

theorem Visits.length_eq (h : Visits dryRun here tree gs ns tree₁) : ns.length = gs.length := by
  induction h with
  | nil tree => rfl
  | cons first rest ih => rw [List.length_cons, List.length_cons, ih]

/-- The links of all visits are counted. -/
theorem Visits.replacements_summarize (h : Visits dryRun here tree gs ns tree₁) :
    (summarize gs ns).replacements = ns.sum := by
  induction h with
  | nil tree => rfl
  | @cons _ _ _ g gs n ns first rest ih =>
    have hadd : summarize (g :: gs) (n :: ns) =
        (summarize gs ns).add (groupPath g).text n := rfl
    rw [hadd, Replaced.add, List.sum_cons]
    split_ifs with hn
    · rw [hn, Nat.zero_add, ih]
    · rw [ih]

/-- Groups whose files can all be visited are gone through to the end. -/
theorem Visits.inGroups_eq (h : Visits dryRun here tree gs ns tree₁) :
    inGroups dryRun here tree gs = (tree₁, .ok (summarize gs ns)) := by
  induction h with
  | nil tree => rfl
  | cons first rest ih => exact inGroups_cons first ih

/-- A visit that fails ends the run, with what the visits before it have left. -/
theorem Visits.inGroups_of_fault (h : Visits dryRun here tree gs ns tree₁) {f : ReplaceFault}
    (hfault : inFile dryRun here (groupPath g) g.2 tree₁ = .error f)
    (after : Groups (Text × Text) Violation) :
    inGroups dryRun here tree (gs ++ g :: after) = (tree₁, .error f) := by
  induction h with
  | nil tree =>
    obtain ⟨⟨root, filePath⟩, vs⟩ := g
    rw [groupPath, SourceFile.path] at hfault
    rw [List.nil_append, inGroups, hfault]
  | @cons _ _ _ g' _ _ _ first rest ih =>
    obtain ⟨⟨root, filePath⟩, vs⟩ := g'
    rw [groupPath, SourceFile.path] at first
    rw [List.cons_append, inGroups, first]
    dsimp only
    rw [ih hfault]

/-- Groups are all visited, or those before one whose visit fails are. -/
theorem visits_or_fault (gs : Groups (Text × Text) Violation) (tree : FileTree) :
    (∃ ns tree', Visits dryRun here tree gs ns tree') ∨
      ∃ before g after ns tree' f, gs = before ++ g :: after ∧
        Visits dryRun here tree before ns tree' ∧
        inFile dryRun here (groupPath g) g.2 tree' = .error f := by
  induction gs generalizing tree with
  | nil => exact .inl ⟨[], tree, .nil tree⟩
  | cons g gs ih =>
    rcases hfile : inFile dryRun here (groupPath g) g.2 tree with f | ⟨tree₁, n⟩
    · exact .inr ⟨[], g, gs, [], tree, f, rfl, .nil tree, hfile⟩
    · rcases ih tree₁ with ⟨ns, tree', hvisits⟩ | ⟨before, g', after, ns, tree', f, rfl, hvisits, hf⟩
      · exact .inl ⟨n :: ns, tree', .cons hfile hvisits⟩
      · exact .inr ⟨g :: before, g', after, n :: ns, tree', f, rfl, .cons hfile hvisits, hf⟩

/-- A run visits all groups, or those up to one whose visit fails. -/
theorem inGroups_outcome (gs : Groups (Text × Text) Violation) (tree : FileTree) :
    (∃ ns tree', Visits dryRun here tree gs ns tree' ∧
      inGroups dryRun here tree gs = (tree', .ok (summarize gs ns))) ∨
      ∃ before g after ns tree' f, gs = before ++ g :: after ∧
        Visits dryRun here tree before ns tree' ∧
        inFile dryRun here (groupPath g) g.2 tree' = .error f ∧
        inGroups dryRun here tree gs = (tree', .error f) := by
  rcases visits_or_fault gs tree with ⟨ns, tree', h⟩ | ⟨before, g, after, ns, tree', f, rfl, h, hf⟩
  · exact .inl ⟨ns, tree', h, h.inGroups_eq⟩
  · exact .inr ⟨before, g, after, ns, tree', f, rfl, h, hf, h.inGroups_of_fault hf after⟩

end Visits

end Replace

end InsecureLinks
