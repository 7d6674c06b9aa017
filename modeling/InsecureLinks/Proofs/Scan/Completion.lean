import Mathlib
import InsecureLinks.Proofs.Glob.Subtree
import InsecureLinks.Scan.Walk

/-!
# A walk comes to its end

At a name a walk skips what is there, walks a folder or takes a file (`meets_of_meet`), and in a folder
it goes through all names unless it has been there or cannot list them (`folder_cases`).

Nothing that a walk meets ends it: what cannot be listed or looked at is passed over.  Its only
faults are a root that is no folder and a pattern that cannot be read, so with roots that lead to
folders and patterns that can be read every tree is walked (`roots_eq_ok`), however its links lead
in circles.
-/

namespace InsecureLinks

namespace Glob

/-- The patterns of whole folders can be read if the patterns that they come from can. -/
theorem subtrees_eq_ok {ps : List Text} (hps : ∀ p ∈ ps, ∃ ts, parse p = .ok ts) :
    ∃ us, subtrees ps = .ok us ∧
      ∀ ts, ts ∈ us ↔ ∃ p ∈ ps, ∃ q, subtreePattern? p = some q ∧ parse q = .ok ts := by
  have hparse : ∀ q ∈ ps.filterMap subtreePattern?, ∃ ts, parse q = .ok ts := by
    intro q hq
    obtain ⟨p, hp, hpq⟩ := List.mem_filterMap.1 hq
    obtain ⟨ts, hts⟩ := hps p hp
    exact exists_parse_subtreePattern hts hpq
  obtain ⟨us, hus, hmem⟩ := mapM_eq_ok hparse
  refine ⟨us, hus, fun ts => ?_⟩
  rw [hmem]
  constructor
  · rintro ⟨q, hq, hts⟩
    obtain ⟨p, hp, hpq⟩ := List.mem_filterMap.1 hq
    exact ⟨p, hp, q, hpq, hts⟩
  · rintro ⟨p, hp, q, hpq, hts⟩
    exact ⟨q, List.mem_filterMap.2 ⟨p, hp, hpq⟩, hts⟩

/-- Whether a file is scanned, by its path from the root: some pattern includes it, or none is
given, and no pattern excludes it. -/
def Selects (included excluded : List Text) (path : Text) : Prop :=
  (included = [] ∨ ∃ p ∈ included, MatchesPattern p path) ∧
    ∀ p ∈ excluded, ¬MatchesPattern p path

end Glob

namespace Walk

/-! ## One folder -/

/-- What a walk does at `name` in the folder to which `names` lead, when `enter` walks a folder. -/
def meet (plan : Plan) (enter : Place → List Text → State → Except Glob.Error State)
    (place : Place) (names : List Text) (s : State) (name : Text) : Except Glob.Error State :=
  match behind plan.tree place name with
  | .error c => .ok (s.warn (names ++ [name]) c.message)
  | .ok none => .ok (s.warn (names ++ [name]) "dangling symbolic link".toList)
  | .ok (some (p, .folder)) =>
    if isPruned plan (names ++ [name]) then .ok s else enter p (names ++ [name]) s
  | .ok (some (_, .file _)) => meetFile plan (names ++ [name]) s
  | .ok (some _) =>
    if isLink plan.tree place name then
      .ok (s.warn (names ++ [name]) "dangling symbolic link".toList)
    else .ok s

theorem folder_succ (plan : Plan) (fuel : ℕ) (place : Place) (names : List Text) (s : State) :
    folder plan (fuel + 1) place names s =
      if s.visited.contains place then .ok s
      else
        match list? plan place names with
        | none =>
          .ok ({ s with visited := place :: s.visited }.warn names
            ("cannot list directory (".toList ++ Cause.denied.message ++ [')']))
        | some entries =>
          entries.foldlM (meet plan (folder plan fuel) place names)
            { s with visited := place :: s.visited } := rfl

section Steps

variable {plan : Plan} {enter : Place → List Text → State → Except Glob.Error State} {fuel : ℕ}
  {place : Place} {names : List Text} {name : Text} {s s' : State}

/-- Whether what `names` lead to is passed over, maybe with a warning. -/
def Skips (names : List Text) (s s' : State) : Prop := s' = s ∨ ∃ message, s' = s.warn names message

theorem Skips.files (h : Skips names s s') : s'.files = s.files := by
  rcases h with rfl | ⟨message, rfl⟩
  · rfl
  · rfl

theorem Skips.visited (h : Skips names s s') : s'.visited = s.visited := by
  rcases h with rfl | ⟨message, rfl⟩
  · rfl
  · rfl

/-- What a walk does at a name: it skips it, walks the folder behind it or takes the file behind
it. -/
inductive Meets (plan : Plan) (enter : Place → List Text → State → Except Glob.Error State)
    (place : Place) (names : List Text) (s : State) (name : Text) : State → Prop
  | skips {s' : State} (hs : Skips (names ++ [name]) s s')
      (hpruned : ∀ p, behind plan.tree place name = .ok (some (p, .folder)) →
        isPruned plan (names ++ [name]) = true)
      (hselects : ∀ p content, behind plan.tree place name = .ok (some (p, .file content)) →
        selects plan (relative (names ++ [name])) = .ok false) :
      Meets plan enter place names s name s'
  | enters {s' : State} {p : Place}
      (hbehind : behind plan.tree place name = .ok (some (p, .folder)))
      (hpruned : isPruned plan (names ++ [name]) = false)
      (henter : enter p (names ++ [name]) s = .ok s') : Meets plan enter place names s name s'
  | takes {p : Place} {content : Content}
      (hbehind : behind plan.tree place name = .ok (some (p, .file content)))
      (hselects : selects plan (relative (names ++ [name])) = .ok true) :
      Meets plan enter place names s name
        { s with files := s.files ++ [⟨plan.root, relative (names ++ [name])⟩] }

theorem meets_of_meet (h : meet plan enter place names s name = .ok s') :
    Meets plan enter place names s name s' := by
  rw [meet] at h
  split at h
  · next hbehind =>
    cases h
    exact .skips (.inr ⟨_, rfl⟩) (by simp [hbehind]) (by simp [hbehind])
  · next hbehind =>
    cases h
    exact .skips (.inr ⟨_, rfl⟩) (by simp [hbehind]) (by simp [hbehind])
  · next p hbehind =>
    rcases hpruned : isPruned plan (names ++ [name]) with _ | _
    · rw [hpruned] at h
      exact .enters hbehind hpruned h
    · rw [hpruned] at h
      cases h
      exact .skips (.inl rfl) (fun _ _ => hpruned) (by simp [hbehind])
  · next p content hbehind =>
    rw [meetFile] at h
    obtain ⟨selected, hselects, h⟩ := bind_eq_ok.1 h
    cases selected with
    | false =>
      cases h
      exact .skips (.inl rfl) (by simp [hbehind]) fun _ _ _ => hselects
    | true =>
      cases h
      exact .takes hbehind hselects
  · next hfolder hfile hbehind =>
    have hs : Skips (names ++ [name]) s s' := by
      split_ifs at h
      · cases h
        exact .inr ⟨_, rfl⟩
      · cases h
        exact .inl rfl
    refine .skips hs (fun q hq => ?_) fun q content hq => ?_
    · exact absurd (hbehind.symm.trans hq) (by simpa using hfolder _)
    · exact absurd (hbehind.symm.trans hq) (by simpa using hfile _ _)

/-- A name behind which nothing is found is skipped. -/
theorem Meets.skips_of_behind (h : Meets plan enter place names s name s')
    (hno : ∀ p x, behind plan.tree place name ≠ .ok (some (p, x))) :
    Skips (names ++ [name]) s s' := by
  cases h with
  | skips hs => exact hs
  | enters hbehind | takes hbehind => exact absurd hbehind (hno _ _)

theorem list?_eq_none :
    list? plan place names = none ↔
      FileTree.routeFrom plan.route names ∈ plan.tree.unlistable := by
  rw [list?, ← List.contains_iff_mem]
  simp

theorem list?_of_listable (h : FileTree.routeFrom plan.route names ∉ plan.tree.unlistable) :
    list? plan place names = some (plan.tree.names place) := by
  rw [list?, if_neg (List.contains_iff_mem.not.2 h)]

/-- The walk of a folder leaves it if it has been visited, records it if it cannot be listed, or goes
through all names in it. -/
theorem folder_cases (h : folder plan (fuel + 1) place names s = .ok s') :
    place ∈ s.visited ∧ s' = s ∨
      place ∉ s.visited ∧ list? plan place names = none ∧
          s' = { s with visited := place :: s.visited }.warn names
            ("cannot list directory (".toList ++ Cause.denied.message ++ [')']) ∨
      place ∉ s.visited ∧ list? plan place names = some (plan.tree.names place) ∧
          (plan.tree.names place).foldlM (meet plan (folder plan fuel) place names)
            { s with visited := place :: s.visited } = .ok s' := by
  rw [folder_succ] at h
  by_cases hvisited : place ∈ s.visited
  · rw [if_pos (List.contains_iff_mem.2 hvisited)] at h
    cases h
    exact .inl ⟨hvisited, rfl⟩
  · rw [if_neg (List.contains_iff_mem.not.2 hvisited)] at h
    by_cases hbarred : FileTree.routeFrom plan.route names ∈ plan.tree.unlistable
    · have hnone : list? plan place names = none := list?_eq_none.2 hbarred
      rw [hnone] at h
      cases h
      exact .inr (.inl ⟨hvisited, hnone, rfl⟩)
    · rw [list?_of_listable hbarred] at h
      exact .inr (.inr ⟨hvisited, list?_of_listable hbarred, h⟩)

end Steps

/-! ## Every folder is walked to its end -/

/-- Whether all patterns of a plan can be read. -/
def Plan.IsReadable (plan : Plan) : Prop :=
  (∀ p ∈ plan.included, ∃ ts, Glob.parse p = .ok ts) ∧
    ∀ p ∈ plan.excluded, ∃ ts, Glob.parse p = .ok ts

section Plan

variable {plan : Plan} (hplan : plan.IsReadable)

include hplan

theorem selects_eq_ok (path : Text) :
    ∃ b, selects plan path = .ok b ∧
      (b = true ↔ Glob.Selects plan.included plan.excluded path) := by
  obtain ⟨i, hi, hincluded⟩ := Glob.matchesAny_eq_ok hplan.1 path
  obtain ⟨e, he, hexcluded⟩ := Glob.matchesAny_eq_ok hplan.2 path
  have hexcluded' : e = false ↔ ∀ p ∈ plan.excluded, ¬Glob.MatchesPattern p path := by
    rw [← Bool.not_eq_true, hexcluded]
    push Not
    rfl
  rw [selects, hi, he, Glob.Selects, ← hincluded, ← hexcluded']
  rcases hempty : plan.included with _ | ⟨p, ps⟩
  · exact ⟨!e, rfl, by simp⟩
  · rcases i with _ | _
    · exact ⟨false, rfl, by simp⟩
    · exact ⟨!e, rfl, by simp⟩

theorem meetFile_eq_ok (names : List Text) (s : State) : ∃ s', meetFile plan names s = .ok s' := by
  obtain ⟨b, hb, -⟩ := selects_eq_ok hplan (relative names)
  rw [meetFile, hb]
  rcases b with _ | _
  · exact ⟨_, rfl⟩
  · exact ⟨_, rfl⟩

theorem meet_eq_ok {enter : Place → List Text → State → Except Glob.Error State}
    (henter : ∀ place names s, ∃ s', enter place names s = .ok s') (place : Place)
    (names : List Text) (s : State) (name : Text) :
    ∃ s', meet plan enter place names s name = .ok s' := by
  unfold meet
  split
  · exact ⟨_, rfl⟩
  · exact ⟨_, rfl⟩
  · split_ifs
    · exact ⟨_, rfl⟩
    · exact henter _ _ _
  · exact meetFile_eq_ok hplan _ s
  · split_ifs
    · exact ⟨_, rfl⟩
    · exact ⟨_, rfl⟩

theorem folder_eq_ok (fuel : ℕ) (place : Place) (names : List Text) (s : State) :
    ∃ s', folder plan fuel place names s = .ok s' := by
  induction fuel generalizing place names s with
  | zero => exact ⟨s, rfl⟩
  | succ fuel ih =>
    rw [folder_succ]
    split_ifs
    · exact ⟨s, rfl⟩
    · rcases list? plan place names with _ | entries
      · exact ⟨_, rfl⟩
      · have hstep : ∀ name ∈ entries, ∀ s, True →
            ∃ s', meet plan (folder plan fuel) place names s name = .ok s' ∧ True := by
          intro name _ s _
          obtain ⟨s', hs'⟩ := meet_eq_ok hplan ih place names s name
          exact ⟨s', hs', trivial⟩
        obtain ⟨s', hs', -⟩ := foldlM_eq_ok hstep trivial
        exact ⟨s', hs'⟩

end Plan

/-! ## The roots -/

section Roots

variable {tree : FileTree} {here : Place} {included excluded : List Text}

/-- The plan that a root is walked by. -/
def planOf (tree : FileTree) (here : Place) (included excluded : List Text)
    (pruned : List (List Glob.Token)) (written : Text) : Plan :=
  ⟨tree, (Path.ofText written).text, FileTree.routeOf here (Path.ofText written), included,
    excluded, pruned⟩

@[simp] theorem planOf_tree (pruned : List (List Glob.Token)) (written : Text) :
    (planOf tree here included excluded pruned written).tree = tree := rfl

@[simp] theorem planOf_root (pruned : List (List Glob.Token)) (written : Text) :
    (planOf tree here included excluded pruned written).root = (Path.ofText written).text := rfl

/-- A root that leads to a folder is walked from there. -/
theorem root_of_reach {pruned : List (List Glob.Token)} (hpruned : Glob.subtrees excluded = .ok pruned)
    {written : Text} {place : Place}
    (hroot : tree.reach here (Path.ofText written).text = .ok (place, .folder)) (s : State) :
    root tree here included excluded written s =
      match folder (planOf tree here included excluded pruned written) (tree.folders.length + 1)
        place [] { s with visited := [] } with
      | .ok s => .ok s
      | .error e => .error (.pattern e) := by
  rw [root, FileTree.ask, hroot]
  simp only [hpruned]
  rfl

/-- Only a root that leads to a folder is walked, and only if the patterns of whole folders can be
read. -/
theorem exists_of_root_eq_ok {written : Text} {s s' : State}
    (h : root tree here included excluded written s = .ok s') :
    ∃ place pruned, tree.reach here (Path.ofText written).text = .ok (place, .folder) ∧
      Glob.subtrees excluded = .ok pruned ∧
      folder (planOf tree here included excluded pruned written) (tree.folders.length + 1) place []
        { s with visited := [] } = .ok s' := by
  rcases hreach : tree.reach here (Path.ofText written).text with c | ⟨place, x⟩
  · -- A root that cannot be reached is a fault, whatever the cause.
    rw [root, FileTree.ask, hreach] at h
    dsimp only at h
    by_cases hc : FileTree.meansAbsent c || (Path.ofText written).text.contains (Char.ofNat 0)
    · rw [if_pos hc] at h
      cases h
    · rw [if_neg hc] at h
      cases h
  · cases x with
    | folder =>
      rcases hpruned : Glob.subtrees excluded with e | pruned
      · rw [root, FileTree.ask, hreach] at h
        simp only [hpruned] at h
        cases h
      · rw [root_of_reach hpruned hreach] at h
        rcases hfolder : folder (planOf tree here included excluded pruned written)
            (tree.folders.length + 1) place [] { s with visited := [] } with e | s₁
        · rw [hfolder] at h
          cases h
        · rw [hfolder] at h
          cases h
          exact ⟨place, pruned, rfl, rfl, hfolder⟩
    | file | link | pipe =>
      rw [root, FileTree.ask, hreach] at h
      cases h

/-- Roots that lead to folders are all walked if all patterns can be read. -/
theorem roots_eq_ok {roots : List Text}
    (hroots : ∀ r ∈ roots, ∃ place, tree.reach here (Path.ofText r).text = .ok (place, .folder))
    (hincluded : ∀ p ∈ included, ∃ ts, Glob.parse p = .ok ts)
    (hexcluded : ∀ p ∈ excluded, ∃ ts, Glob.parse p = .ok ts) :
    ∃ found, Walk.roots tree here roots included excluded = .ok found := by
  obtain ⟨pruned, hpruned, -⟩ := Glob.subtrees_eq_ok hexcluded
  have hfold : ∀ s, ∃ s', roots.foldlM (fun s r => root tree here included excluded r s) s =
      .ok s' := by
    induction roots with
    | nil => exact fun s => ⟨s, rfl⟩
    | cons r rs ih =>
      intro s
      obtain ⟨place, hplace⟩ := hroots r (by simp)
      have hplan : (planOf tree here included excluded pruned r).IsReadable :=
        ⟨hincluded, hexcluded⟩
      obtain ⟨s₁, hs₁⟩ :=
        folder_eq_ok hplan (tree.folders.length + 1) place [] { s with visited := [] }
      obtain ⟨s₂, hs₂⟩ := ih (fun r hr => hroots r (by simp [hr])) s₁
      refine ⟨s₂, ?_⟩
      rw [List.foldlM_cons, root_of_reach hpruned hplace, hs₁]
      exact hs₂
  obtain ⟨s, hs⟩ := hfold ⟨[], [], []⟩
  exact ⟨(s.files, s.diagnostics), by rw [Walk.roots, hs]; rfl⟩

end Roots

end Walk

end InsecureLinks
