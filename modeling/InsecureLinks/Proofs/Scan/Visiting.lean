import Mathlib
import InsecureLinks.Proofs.Files.Lookup
import InsecureLinks.Proofs.Scan.Completion

/-!
# How a walk comes to its files

A walk comes to a place through names that it has found in folders, links followed at each of them
(`Leads`).  It has entered these folders on the way and enters no folder twice, so they are all
different.  Every file that is found is come to in this way and is selected by the patterns
(`exists_leads_of_mem_found`), and its path leads to it unless that is too long or follows too many
links (`ComesTo.reach_eq`).
-/

namespace InsecureLinks.Walk

open FileTree

variable {t : FileTree} {start place : Place} {name : Text}

/-! ## What is behind a name -/

theorem behind_eq_some {q : Place} {x : Node} (h : behind t place name = .ok (some (q, x))) :
    t.walk true maxLinks place [name] = .ok ⟨q, some x⟩ := by
  rw [behind] at h
  split at h
  · next hwalk =>
    cases h
    exact hwalk
  · cases h
  · cases h
  · cases h

theorem node?_of_behind {q : Place} {x : Node} (h : behind t place name = .ok (some (q, x))) :
    t.node? q = some x := node?_of_walk (behind_eq_some h)

/-- Where there are no links, the place of a name is the one beneath the folder. -/
theorem behind_of_node? (ht : t.IsSound) (hlinks : t.IsLinkFree) {x : Node}
    (h : t.node? (place ++ [name]) = some x) :
    behind t place name = .ok (some (place ++ [name], x)) := by
  rw [behind, hlinks.walk_beneath ht h]

/-! ## Ways -/

/-- Names that lead from the folder `start` to a place, each of them found in a folder and links
followed there.  The `trail` are these folders, of which no two are the same. -/
inductive Leads (t : FileTree) (start : Place) : List Text → List Place → Place → Prop
  | start : Leads t start [] [] start
  | step {names trail p name q x} (h : Leads t start names trail p)
      (hfolder : t.node? p = some .folder) (hnew : p ∉ trail) (hname : name ∈ t.names p)
      (hbehind : behind t p name = .ok (some (q, x))) :
      Leads t start (names ++ [name]) (p :: trail) q

section Leads

variable {names : List Text} {trail trail' : List Place} {p p' : Place}

theorem Leads.eq_start (h : Leads t start [] trail p) : p = start := by
  generalize hnil : ([] : List Text) = names at h
  cases h with
  | start => rfl
  | step => simp at hnil

theorem Leads.exists_behind {q : Place} (h : Leads t start (names ++ [name]) trail q) :
    ∃ trail' p x, Leads t start names trail' p ∧ behind t p name = .ok (some (q, x)) := by
  generalize hconcat : names ++ [name] = l at h
  cases h with
  | start => simp at hconcat
  | step h hfolder hnew hname hbehind =>
    obtain ⟨rfl, hlast⟩ := List.append_inj' hconcat rfl
    obtain rfl := List.singleton_inj.1 hlast
    exact ⟨_, _, _, h, hbehind⟩

/-- Names lead to one place. -/
theorem Leads.place_unique (h : Leads t start names trail p) (h' : Leads t start names trail' p') :
    p' = p := by
  induction h generalizing trail' p' with
  | start => exact h'.eq_start
  | @step names trail p name q x h hfolder hnew hname hbehind ih =>
    obtain ⟨trail'', p'', y, hleads, hbehind'⟩ := h'.exists_behind
    rw [ih hleads, hbehind] at hbehind'
    cases hbehind'
    rfl

end Leads

/-- Whether names lead to a place through folders that have been visited. -/
def Comes (t : FileTree) (start : Place) (visited : List Place) (names : List Text) (p : Place) :
    Prop := ∃ trail, Leads t start names trail p ∧ trail ⊆ visited

theorem comes_start (visited : List Place) : Comes t start visited [] start :=
  ⟨[], .start, List.nil_subset _⟩

section Comes

variable {visited visited' : List Place} {names : List Text} {p : Place}

theorem Comes.mono (h : Comes t start visited names p) (hsub : visited ⊆ visited') :
    Comes t start visited' names p := by
  obtain ⟨trail, hleads, htrail⟩ := h
  exact ⟨trail, hleads, List.Subset.trans htrail hsub⟩

theorem Comes.step (h : Comes t start visited names p) (hfolder : t.node? p = some .folder)
    (hnew : p ∉ visited) (hname : name ∈ t.names p) {q : Place} {x : Node}
    (hbehind : behind t p name = .ok (some (q, x))) :
    Comes t start (p :: visited) (names ++ [name]) q := by
  obtain ⟨trail, hleads, htrail⟩ := h
  exact ⟨p :: trail, hleads.step hfolder (fun hp => hnew (htrail hp)) hname hbehind,
    List.cons_subset_cons p htrail⟩

end Comes

/-! ## What a walk keeps -/

section Invariant

variable {plan : Plan} {P : State → Prop} {Q : List Place → List Text → Place → Prop}
  (hwarn : ∀ names message s, P s → P (s.warn names message))
  (hfile : ∀ names p content s, Q s.visited names p → plan.tree.node? p = some (.file content) →
    selects plan (relative names) = .ok true → P s →
    P { s with files := s.files ++ [⟨plan.root, relative names⟩] })

include hwarn hfile

theorem meet_invariant {enter : Place → List Text → State → Except Glob.Error State}
    (henter : ∀ p names s s', plan.tree.node? p = some .folder → Q s.visited names p → P s →
      enter p names s = .ok s' → P s' ∧ s.visited ⊆ s'.visited)
    {names : List Text} {s s' : State}
    (hQ : ∀ q x, behind plan.tree place name = .ok (some (q, x)) → Q s.visited (names ++ [name]) q)
    (hP : P s) (h : meet plan enter place names s name = .ok s') :
    P s' ∧ s.visited ⊆ s'.visited := by
  cases meets_of_meet h with
  | skips hs =>
    rcases hs with rfl | ⟨message, rfl⟩
    · exact ⟨hP, List.Subset.refl _⟩
    · exact ⟨hwarn _ _ _ hP, List.Subset.refl _⟩
  | enters hbehind hpruned hwalk =>
    exact henter _ _ _ _ (node?_of_behind hbehind) (hQ _ _ hbehind) hP hwalk
  | takes hbehind hselects =>
    exact ⟨hfile _ _ _ _ (hQ _ _ hbehind) (node?_of_behind hbehind) hselects hP,
      List.Subset.refl _⟩

variable (hvisit : ∀ p s, P s → P { s with visited := p :: s.visited })
  (hmono : ∀ visited visited' names p, visited ⊆ visited' → Q visited names p →
    Q visited' names p)
  (hlead : ∀ visited names p name q x, Q visited names p → plan.tree.node? p = some .folder →
    p ∉ visited → name ∈ plan.tree.names p → behind plan.tree p name = .ok (some (q, x)) →
    Q (p :: visited) (names ++ [name]) q)

include hvisit hmono hlead

/-- What holds of a state and is kept by entering a folder, by recording something and by each file
that is selected holds after a folder has been walked.  What holds of the names on the way is handed
on from each folder to those in it. -/
theorem folder_invariant {fuel : ℕ} {names : List Text} {s s' : State}
    (hfolder : plan.tree.node? place = some .folder) (hQ : Q s.visited names place) (hP : P s)
    (h : folder plan fuel place names s = .ok s') : P s' ∧ s.visited ⊆ s'.visited := by
  induction fuel generalizing place names s s' with
  | zero =>
    cases h
    exact ⟨hP, List.Subset.refl _⟩
  | succ fuel ih =>
    have hsub : s.visited ⊆ place :: s.visited := List.subset_cons_self _ _
    rcases folder_cases h with ⟨-, rfl⟩ | ⟨-, -, rfl⟩ | ⟨hnew, -, hfold⟩
    · exact ⟨hP, List.Subset.refl _⟩
    · exact ⟨hwarn _ _ _ (hvisit _ _ hP), hsub⟩
    · have hstep : ∀ name ∈ plan.tree.names place, ∀ u u' : State,
          P u ∧ place :: s.visited ⊆ u.visited →
          meet plan (folder plan fuel) place names u name = .ok u' →
          P u' ∧ place :: s.visited ⊆ u'.visited := by
        intro name hname u u' hu hmeet
        have hbehind : ∀ q x, behind plan.tree place name = .ok (some (q, x)) →
            Q u.visited (names ++ [name]) q := fun q x hbehind =>
          hmono _ _ _ _ hu.2 (hlead _ _ _ _ _ _ hQ hfolder hnew hname hbehind)
        obtain ⟨hP', hmore⟩ := meet_invariant hwarn hfile
          (fun p names s s' hp hQ hP h => ih hp hQ hP h) hbehind hu.1 hmeet
        exact ⟨hP', List.Subset.trans hu.2 hmore⟩
      obtain ⟨hP', hmore⟩ := foldlM_invariant _ hstep ⟨hvisit _ _ hP, List.Subset.refl _⟩ hfold
      exact ⟨hP', List.Subset.trans hsub hmore⟩

end Invariant

section Visited

variable {plan : Plan} {fuel : ℕ} {names : List Text} {s s' : State}

/-- A walk of a folder visits more and more folders. -/
theorem folder_visited (hfolder : plan.tree.node? place = some .folder)
    (h : folder plan fuel place names s = .ok s') : s.visited ⊆ s'.visited :=
  (folder_invariant (P := fun _ => True) (Q := fun _ _ _ => True) (fun _ _ _ _ => trivial)
    (fun _ _ _ _ _ _ _ _ => trivial) (fun _ _ _ => trivial) (fun _ _ _ _ _ _ => trivial)
    (fun _ _ _ _ _ _ _ _ _ _ _ => trivial) hfolder trivial trivial h).2

theorem meet_visited (h : meet plan (folder plan fuel) place names s name = .ok s') :
    s.visited ⊆ s'.visited :=
  (meet_invariant (P := fun _ => True) (Q := fun _ _ _ => True) (fun _ _ _ _ => trivial)
    (fun _ _ _ _ _ _ _ _ => trivial)
    (fun _ _ _ _ hp _ _ h => ⟨trivial, folder_visited hp h⟩) (fun _ _ _ => trivial) trivial h).2

end Visited

/-! ## Folders that are still unvisited -/

/-- How many folders of a tree have not been visited. -/
def remaining (t : FileTree) (visited : List Place) : ℕ :=
  (t.folders.filter fun p => !visited.contains p).length

theorem remaining_nil (t : FileTree) : remaining t [] = t.folders.length := by
  simp [remaining]

theorem remaining_mono {visited visited' : List Place} (h : visited ⊆ visited') :
    remaining t visited' ≤ remaining t visited := by
  refine (List.monotone_filter_right _ fun p hp => ?_).length_le
  simp only [Bool.not_eq_true', List.contains_eq_mem, decide_eq_false_iff_not] at hp ⊢
  exact fun hmem => hp (h hmem)

/-- Entering a folder leaves fewer unvisited. -/
theorem remaining_lt {visited : List Place} (hfolder : t.node? place = some .folder)
    (hnew : place ∉ visited) : remaining t (place :: visited) < remaining t visited := by
  have hsub : (t.folders.filter fun p => !(place :: visited).contains p).Sublist
      (t.folders.filter fun p => !visited.contains p) := by
    refine List.monotone_filter_right _ fun p hp => ?_
    simp only [Bool.not_eq_true', List.contains_eq_mem, decide_eq_false_iff_not, List.mem_cons,
      not_or] at hp ⊢
    exact hp.2
  refine lt_of_le_of_ne hsub.length_le fun hlength => ?_
  have hmem : place ∈ t.folders.filter fun p => !visited.contains p :=
    List.mem_filter.2 ⟨mem_folders hfolder, by simpa using hnew⟩
  rw [← hsub.eq_of_length hlength] at hmem
  simp at hmem

/-! ## The files of a walk -/

section Found

variable {here : Place} {roots included excluded : List Text}

/-- Whether a walk of the roots comes to a file: names lead to it from the folder of a root, and the
patterns select it under these names.  Which folders are passed over does not matter to that. -/
inductive ComesTo (t : FileTree) (here : Place) (roots included excluded : List Text) :
    SourceFile → Place → Prop
  | intro {r start names trail p content} (hr : r ∈ roots)
      (hreach : t.reach here (Path.ofText r).text = .ok (start, .folder))
      (hleads : Leads t start names trail p) (hfile : t.node? p = some (.file content))
      (hselects : selects (planOf t here included excluded [] r) (relative names) = .ok true) :
      ComesTo t here roots included excluded ⟨(Path.ofText r).text, relative names⟩ p

theorem exists_leads_of_mem_found {found : List SourceFile} {met : List Diagnostic}
    (hroots : Walk.roots t here roots included excluded = .ok (found, met)) {f : SourceFile}
    (hf : f ∈ found) : ∃ p, ComesTo t here roots included excluded f p := by
  rw [Walk.roots, bind_eq_ok] at hroots
  obtain ⟨s, hs, hfound⟩ := hroots
  cases hfound
  let P (s : State) : Prop := ∀ f ∈ s.files, ∃ p, ComesTo t here roots included excluded f p
  have hstep : ∀ r ∈ roots, ∀ s s', P s → root t here included excluded r s = .ok s' → P s' := by
    intro r hr s s' hP hroot
    obtain ⟨start, pruned, hreach, -, hwalk⟩ := exists_of_root_eq_ok hroot
    have hP : P { s with visited := [] } := hP
    refine (folder_invariant (P := P) (Q := Comes t start) (fun _ _ _ hP => hP) ?_
      (fun _ _ hP => hP) (fun _ _ _ _ hsub hQ => hQ.mono hsub)
      (fun _ _ _ _ _ _ hQ hfolder hnew hname hbehind => hQ.step hfolder hnew hname hbehind)
      (node?_of_reach hreach) (comes_start []) hP hwalk).1
    rintro names p content u ⟨trail, hleads, -⟩ hnode hselects hP f hf
    rcases List.mem_append.1 hf with hf | hf
    · exact hP f hf
    · obtain rfl := List.mem_singleton.1 hf
      exact ⟨p, .intro hr hreach hleads hnode hselects⟩
  exact foldlM_invariant P hstep (by simp [P]) hs f hf

end Found

/-! ## Ways as paths -/

theorem not_mem_relative {c : Char} (hc : c ≠ '/') {l : List Text} (h : ∀ n ∈ l, c ∉ n) :
    c ∉ relative l := by
  intro hmem
  rcases Text.mem_join hmem with hmem | ⟨n, hn, hmem⟩
  · exact hc (List.mem_singleton.1 hmem)
  · exact h n hn hmem

section Leads

variable {names : List Text} {trail : List Place} {p : Place}

theorem Leads.isName (ht : t.IsRooted) (h : Leads t start names trail p) : ∀ n ∈ names, IsName n := by
  induction h with
  | start => simp
  | @step names trail p name q x h hfolder hnew hname hbehind ih =>
    intro n hn
    rcases List.mem_append.1 hn with hn | hn
    · exact ih n hn
    · obtain ⟨y, hy⟩ := mem_names.1 hname
      rw [List.mem_singleton.1 hn]
      exact (ht p name y hy).1

/-- Where there are no links, names lead to the place that they spell out. -/
theorem Leads.place_eq (ht : t.IsRooted) (hlinks : t.IsLinkFree) (h : Leads t start names trail p) :
    p = start ++ names := by
  induction h with
  | start => rw [List.append_nil]
  | @step names trail p name q x h hfolder hnew hname hbehind ih =>
    obtain ⟨y, hy⟩ := mem_names.1 hname
    have hisName := (ht p name y hy).1
    have hwalk := hlinks.walk_eq_routeFrom (by simpa using hisName.ne_dot) (behind_eq_some hbehind)
    obtain ⟨rfl, -⟩ := Found.mk.inj hwalk
    rw [routeFrom, List.foldl_cons, if_neg hisName.ne_dotDot, ih, List.append_assoc]
    rfl

/-- A look-up of the names after those that lead to the start comes to the same place, unless it
follows too many links on the whole way. -/
theorem Leads.walk_append (h : Leads t start names trail p) {above : List Text}
    (habove : t.walk true maxLinks place above = .ok ⟨start, t.node? start⟩) :
    t.walk true maxLinks place (above ++ names) = .ok ⟨p, t.node? p⟩ ∨
      t.walk true maxLinks place (above ++ names) = .error .tooManyLinks := by
  induction h with
  | start => exact .inl (by rwa [List.append_nil])
  | @step names trail p name q x h hfolder hnew hname hbehind ih =>
    rw [← List.append_assoc]
    rcases ih with hwalk | hmany
    · rw [hfolder] at hwalk
      obtain ⟨links, hle, hrest⟩ := walk_append_of_folder hwalk
      rw [hrest, node?_of_behind hbehind, ← behind_eq_some hbehind]
      exact walk_of_le links hle
    · exact .inr (walk_append_of_error hmany _)

end Leads

section ComesTo

variable {here : Place} {roots included excluded : List Text} {f : SourceFile} {p : Place}

/-- The path of a file to which a walk comes leads to it, unless it is too long or follows too many
links. -/
theorem ComesTo.reach_eq (ht : t.IsRooted) (h : ComesTo t here roots included excluded f p) :
    ∃ content, t.node? p = some (.file content) ∧
      (t.reach here f.path.text = .ok (p, .file content) ∨
        ∃ c ≠ Cause.notFound, t.reach here f.path.text = .error c) := by
  obtain @⟨r, start, names, trail, p, content, hr, hreach, hleads, hfile, hselects⟩ := h
  have hnames : ∀ n ∈ names, n ≠ [] ∧ n ≠ Path.dot ∧ '/' ∉ n :=
    fun n hn => (hleads.isName ht n hn).isNormal
  have hnormal := Path.isNormal_ofText r
  refine ⟨content, hfile, ?_⟩
  rw [SourceFile.path, Path.ofText_text hnormal, relative]
  have hlookup := lookup_join hnormal hnames t true here
  rw [reach_eq_ok, lookup_text hnormal] at hreach
  generalize (if (Path.ofText r).isAbsolute then [] else here) = above at hreach hlookup
  dsimp only
  split_ifs at hreach hlookup with hlong hlong'
  · exact .inr ⟨_, by simp, reach_of_lookup_error hlookup⟩
  · rw [← node?_of_walk hreach] at hreach
    rcases hleads.walk_append hreach with hwalk | hmany
    · rw [reach_eq_ok, hlookup, hwalk, hfile]
      exact .inl rfl
    · exact .inr ⟨_, by simp, reach_of_lookup_error (hlookup.trans hmany)⟩

end ComesTo
end InsecureLinks.Walk
