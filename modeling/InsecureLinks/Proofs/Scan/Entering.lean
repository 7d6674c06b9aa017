import Mathlib
import InsecureLinks.Proofs.Text.Field
import InsecureLinks.Proofs.Scan.Gather
import InsecureLinks.Proofs.Scan.Growth

/-!
# What a walk enters

A walk follows links, so it may come to a folder under several names.  It enters a folder once, under
the names under which it comes there first.  `IsVisit` lists these names: in lexicographic order, each
folder once, every folder that is come upon in a folder on the list and is not passed over, and of the
files that are come upon there exactly those that the patterns select (`exists_visit`).

So the files of a root are in lexicographic order, and no two of them have the same name in the same
folder (`root_visits`).
-/

namespace InsecureLinks.Walk

open FileTree

/-- A folder that a walk enters, and the names under which it does. -/
structure Entry where
  names : List Text
  place : Place

section Entry

variable (plan : Plan)

/-- Whether a walk comes upon something behind a name in a folder that it has entered. -/
def ComesUpon (e : Entry) (name : Text) (q : Place) (x : Node) : Prop :=
  ∃ entries, list? plan e.place e.names = some entries ∧ name ∈ entries ∧
    behind plan.tree e.place name = .ok (some (q, x))

/-- Whether a walk goes from a folder that it has entered into another. -/
def GoesInto (d e : Entry) : Prop :=
  ∃ name, ComesUpon plan d name e.place .folder ∧ e.names = d.names ++ [name] ∧
    isPruned plan e.names = false

/-- Whether a walk finds a file in a folder that it has entered. -/
def Finds (e : Entry) (l : List Text) : Prop :=
  ∃ name q content, ComesUpon plan e name q (.file content) ∧ l = e.names ++ [name] ∧
    selects plan (relative l) = .ok true

/-- Whether a folder into which the walk goes from `e` under the name `name` has been entered by now,
and a file that it finds there is among those that were found. -/
structure IsDoneAt (e : Entry) (visited : List Place) (new : List (List Text)) (name : Text) :
    Prop where
  folder : ∀ q, behind plan.tree e.place name = .ok (some (q, .folder)) →
    isPruned plan (e.names ++ [name]) = false → q ∈ visited
  file : ∀ q content, behind plan.tree e.place name = .ok (some (q, .file content)) →
    selects plan (relative (e.names ++ [name])) = .ok true → e.names ++ [name] ∈ new

/-- Whether a folder that was entered has been walked to its end. -/
def IsDone (visited : List Place) (new : List (List Text)) (e : Entry) : Prop :=
  ∀ entries, list? plan e.place e.names = some entries →
    ∀ name ∈ entries, IsDoneAt plan e visited new name

/-- Whether a walk of a root at `start` enters these folders and finds these files. -/
structure IsVisit (start : Place) (entered : List Entry) (new : List (List Text)) : Prop where
  once : (entered.map Entry.place).Nodup
  order : (entered.map Entry.names).Pairwise (· < ·)
  begins : ⟨[], start⟩ ∈ entered
  leads : ∀ e ∈ entered, ∃ trail, Leads plan.tree start e.names trail e.place ∧ e.place ∉ trail
  into : ∀ e ∈ entered, e = ⟨[], start⟩ ∨ ∃ d ∈ entered, GoesInto plan d e
  goesOn : ∀ d ∈ entered, ∀ e, GoesInto plan d e → e.place ∈ entered.map Entry.place
  sorted : new.Pairwise (· < ·)
  mem_iff : ∀ l, l ∈ new ↔ ∃ e ∈ entered, Finds plan e l

end Entry

/-! ## Steps of a walk -/

/-- Whether a walk goes on from a state by entering folders and finding files, all under names of which
`N` holds, in folders that are `above` or among those that it enters. -/
structure Goes (plan : Plan) (start : Place) (above : List Entry) (N : List Text → Prop)
    (entered : List Entry) (new : List (List Text)) (s s' : State) : Prop where
  visited : s'.visited = (entered.map Entry.place).reverse ++ s.visited
  files : s'.files = s.files ++ new.map (fileAt plan)
  nodup : s.visited.Nodup → s'.visited.Nodup
  leads : ∀ e ∈ entered, ∃ trail, Leads plan.tree start e.names trail e.place ∧ e.place ∉ trail
  into : ∀ e ∈ entered, e = ⟨[], start⟩ ∨ ∃ d ∈ above ++ entered, GoesInto plan d e
  finds : ∀ l ∈ new, ∃ e ∈ above ++ entered, Finds plan e l
  entered_in : ∀ e ∈ entered, N e.names
  new_in : ∀ l ∈ new, N l
  order : (entered.map Entry.names).Pairwise (· < ·)
  sorted : new.Pairwise (· < ·)

section Goes

variable {plan : Plan} {start : Place} {above above' : List Entry} {N N' M : List Text → Prop}
  {entered entered' : List Entry} {new new' : List (List Text)} {s s' s'' : State}

theorem goes_nothing (hvisited : s'.visited = s.visited) (hfiles : s'.files = s.files) :
    Goes plan start above N [] [] s s' where
  visited := hvisited
  files := by rw [hfiles, List.map_nil, List.append_nil]
  nodup h := by rwa [hvisited]
  leads := by simp
  into := by simp
  finds := by simp
  entered_in := by simp
  new_in := by simp
  order := List.Pairwise.nil
  sorted := List.Pairwise.nil

/-- What is found in one folder that is above. -/
theorem goes_file {l : List Text} {e : Entry} (he : e ∈ above) (hl : Finds plan e l) (hN : N l) :
    Goes plan start above N [] [l] s { s with files := s.files ++ [fileAt plan l] } where
  visited := rfl
  files := rfl
  nodup := id
  leads := by simp
  into := by simp
  finds l' hl' := by
    rw [List.mem_singleton.1 hl', List.append_nil]
    exact ⟨e, he, hl⟩
  entered_in := by simp
  new_in l' hl' := by rwa [List.mem_singleton.1 hl']
  order := List.Pairwise.nil
  sorted := List.pairwise_singleton _ _

theorem goes_enter {e : Entry} (hnew : e.place ∉ s.visited)
    (hleads : ∃ trail, Leads plan.tree start e.names trail e.place ∧ e.place ∉ trail)
    (hinto : e = ⟨[], start⟩ ∨ ∃ d ∈ above, GoesInto plan d e) (hN : N e.names) :
    Goes plan start above N [e] [] s { s with visited := e.place :: s.visited } where
  visited := rfl
  files := by simp
  nodup h := List.nodup_cons.2 ⟨hnew, h⟩
  leads e' he' := by rwa [List.mem_singleton.1 he']
  into e' he' := by
    rw [List.mem_singleton.1 he']
    exact hinto.imp_right fun ⟨d, hd, hgoes⟩ => ⟨d, List.mem_append_left _ hd, hgoes⟩
  finds := by simp
  entered_in e' he' := by rwa [List.mem_singleton.1 he']
  new_in := by simp
  order := List.pairwise_singleton _ _
  sorted := List.Pairwise.nil

theorem Goes.trans (h : Goes plan start above N entered new s s')
    (h' : Goes plan start above' N' entered' new' s' s'') (habove : above' ⊆ above ++ entered)
    (hlt : ∀ l l', N l → N' l' → l < l') (hN : ∀ l, N l → M l) (hN' : ∀ l, N' l → M l) :
    Goes plan start above M (entered ++ entered') (new ++ new') s s'' := by
  have hsub : above ++ entered ⊆ above ++ (entered ++ entered') := by
    rw [← List.append_assoc]
    exact List.subset_append_left _ _
  have hsub' : above' ++ entered' ⊆ above ++ (entered ++ entered') := by
    rw [← List.append_assoc]
    exact List.append_subset.2 ⟨List.Subset.trans habove (List.subset_append_left _ _),
      List.subset_append_right _ _⟩
  exact {
    visited := by
      rw [h'.visited, h.visited, List.map_append, List.reverse_append, List.append_assoc]
    files := by rw [h'.files, h.files, List.map_append, List.append_assoc]
    nodup := fun hnodup => h'.nodup (h.nodup hnodup)
    leads := fun e he => (List.mem_append.1 he).elim (h.leads e) (h'.leads e)
    into := fun e he => by
      rcases List.mem_append.1 he with he | he
      · exact (h.into e he).imp_right fun ⟨d, hd, hgoes⟩ => ⟨d, hsub hd, hgoes⟩
      · exact (h'.into e he).imp_right fun ⟨d, hd, hgoes⟩ => ⟨d, hsub' hd, hgoes⟩
    finds := fun l hl => by
      rcases List.mem_append.1 hl with hl | hl
      · obtain ⟨e, he, hfinds⟩ := h.finds l hl
        exact ⟨e, hsub he, hfinds⟩
      · obtain ⟨e, he, hfinds⟩ := h'.finds l hl
        exact ⟨e, hsub' he, hfinds⟩
    entered_in := fun e he =>
      (List.mem_append.1 he).elim (fun he => hN _ (h.entered_in e he))
        fun he => hN' _ (h'.entered_in e he)
    new_in := fun l hl =>
      (List.mem_append.1 hl).elim (fun hl => hN _ (h.new_in l hl)) fun hl => hN' _ (h'.new_in l hl)
    order := by
      rw [List.map_append, List.pairwise_append]
      refine ⟨h.order, h'.order, fun l hl l' hl' => ?_⟩
      obtain ⟨e, he, rfl⟩ := List.mem_map.1 hl
      obtain ⟨e', he', rfl⟩ := List.mem_map.1 hl'
      exact hlt _ _ (h.entered_in e he) (h'.entered_in e' he')
    sorted := List.pairwise_append.2
      ⟨h.sorted, h'.sorted, fun l hl l' hl' => hlt _ _ (h.new_in l hl) (h'.new_in l' hl')⟩ }

theorem Goes.visited_subset (h : Goes plan start above N entered new s s') :
    s.visited ⊆ s'.visited := by
  rw [h.visited]
  exact List.subset_append_right _ _

theorem IsDoneAt.mono {e : Entry} {name : Text} {visited visited' : List Place}
    (h : IsDoneAt plan e visited new name) (hvisited : visited ⊆ visited') (hnew : new ⊆ new') :
    IsDoneAt plan e visited' new' name :=
  ⟨fun q hq hpruned => hvisited (h.folder q hq hpruned),
    fun q content hq hselects => hnew (h.file q content hq hselects)⟩

theorem IsDone.mono {e : Entry} {visited visited' : List Place} (h : IsDone plan visited new e)
    (hvisited : visited ⊆ visited') (hnew : new ⊆ new') : IsDone plan visited' new' e :=
  fun entries hlist name hname => (h entries hlist name hname).mono hvisited hnew

end Goes

/-! ## The walk of a folder -/

section Folder

variable {plan : Plan} {start place : Place} {names entries : List Text} {visited : List Place}
  {fuel : ℕ} {s s' : State}

/-- What the walk of a folder has done when it comes to its end. -/
def Completes (plan : Plan) (start : Place) (above : List Entry) (names : List Text) (place : Place)
    (s s' : State) : Prop :=
  ∃ entered new, Goes plan start above (names <+: ·) entered new s s' ∧ place ∈ s'.visited ∧
    (place ∉ s.visited → ⟨names, place⟩ ∈ entered) ∧
      ∀ e ∈ entered, IsDone plan s'.visited new e

section Meet

variable (hlist : list? plan place names = some entries)
  (henter : ∀ name ∈ entries, ∀ u u' q, visited ⊆ u.visited →
    behind plan.tree place name = .ok (some (q, .folder)) →
    isPruned plan (names ++ [name]) = false → folder plan fuel q (names ++ [name]) u = .ok u' →
    Completes plan start [⟨names, place⟩] (names ++ [name]) q u u')

include hlist henter

theorem meet_goes {name : Text} {u u' : State} (hname : name ∈ entries) (hu : visited ⊆ u.visited)
    (h : meet plan (folder plan fuel) place names u name = .ok u') :
    ∃ entered new, Goes plan start [⟨names, place⟩] (names ++ [name] <+: ·) entered new u u' ∧
      (∀ e ∈ entered, IsDone plan u'.visited new e) ∧
        IsDoneAt plan ⟨names, place⟩ u'.visited new name := by
  cases meets_of_meet h with
  | skips hs hpruned hselects =>
    refine ⟨[], [], goes_nothing hs.visited hs.files, by simp, fun q hq hno => ?_, fun q c hq hyes => ?_⟩
    · cases hno.symm.trans (hpruned q hq)
    · cases hyes.symm.trans (hselects q c hq)
  | @enters _ p hbehind hpruned hwalk =>
    obtain ⟨entered, new, hgoes, hvisited, -, hdone⟩ :=
      henter name hname u u' p hu hbehind hpruned hwalk
    refine ⟨entered, new, hgoes, hdone, fun q hq _ => ?_, fun q c hq => by simp [hbehind] at hq⟩
    cases hbehind.symm.trans hq
    exact hvisited
  | @takes p content hbehind hselects =>
    have hfinds : Finds plan ⟨names, place⟩ (names ++ [name]) :=
      ⟨name, p, content, ⟨entries, hlist, hname, hbehind⟩, rfl, hselects⟩
    exact ⟨[], [names ++ [name]], goes_file (List.mem_singleton_self _) hfinds List.prefix_rfl,
      by simp, fun q hq => by simp [hbehind] at hq, fun _ _ _ _ => List.mem_singleton_self _⟩

theorem foldlM_meet_goes {todo : List Text} {u u' : State} (htodo : todo ⊆ entries)
    (hsorted : todo.Pairwise (· < ·)) (hu : visited ⊆ u.visited)
    (h : todo.foldlM (meet plan (folder plan fuel) place names) u = .ok u') :
    ∃ entered new,
      Goes plan start [⟨names, place⟩] (fun l => ∃ a ∈ todo, names ++ [a] <+: l) entered new u u' ∧
        (∀ e ∈ entered, IsDone plan u'.visited new e) ∧
          ∀ name ∈ todo, IsDoneAt plan ⟨names, place⟩ u'.visited new name := by
  induction todo generalizing u with
  | nil =>
    cases h
    exact ⟨[], [], goes_nothing rfl rfl, by simp, by simp⟩
  | cons a todo ih =>
    rw [List.foldlM_cons] at h
    obtain ⟨u₁, hmeet, h⟩ := bind_eq_ok.1 h
    obtain ⟨hlt, hsorted⟩ := List.pairwise_cons.1 hsorted
    obtain ⟨entered, new, hgoes, hdone, hat⟩ := meet_goes hlist henter (htodo (by simp)) hu hmeet
    obtain ⟨entered', new', hgoes', hdone', hat'⟩ :=
      ih (fun b hb => htodo (by simp [hb])) hsorted (List.Subset.trans hu hgoes.visited_subset) h
    have hvisited := hgoes'.visited_subset
    have hnew : new ⊆ new ++ new' := List.subset_append_left _ _
    have hnew' : new' ⊆ new ++ new' := List.subset_append_right _ _
    refine ⟨entered ++ entered', new ++ new', ?_, fun e he => ?_, fun name hname => ?_⟩
    · refine hgoes.trans hgoes' (List.subset_append_left _ _) ?_ ?_ ?_
      · rintro l l' hl ⟨b, hb, hl'⟩
        exact lt_of_prefix_of_lt (hlt b hb) hl hl'
      · exact fun l hl => ⟨a, by simp, hl⟩
      · rintro l ⟨b, hb, hl⟩
        exact ⟨b, by simp [hb], hl⟩
    · rcases List.mem_append.1 he with he | he
      · exact (hdone e he).mono hvisited hnew
      · exact (hdone' e he).mono (List.Subset.refl _) hnew'
    · rcases List.mem_cons.1 hname with rfl | hname
      · exact hat.mono hvisited hnew
      · exact (hat' name hname).mono (List.Subset.refl _) hnew'

end Meet

/-- A walk of a folder completes unless it runs out of fuel, and it has enough of that if there is more
than there are unvisited folders. -/
theorem folder_completes {above : List Entry} (ht : plan.tree.IsSound)
    (hfolder : plan.tree.node? place = some .folder) (hfuel : remaining plan.tree s.visited < fuel)
    (hcomes : Comes plan.tree start s.visited names place)
    (hinto : (⟨names, place⟩ : Entry) = ⟨[], start⟩ ∨ ∃ d ∈ above, GoesInto plan d ⟨names, place⟩)
    (h : folder plan fuel place names s = .ok s') : Completes plan start above names place s s' := by
  induction fuel generalizing above place names s s' with
  | zero => exact absurd hfuel (Nat.not_lt_zero _)
  | succ fuel ih =>
    have henter (hnew : place ∉ s.visited) : Goes plan start above (· = names) [⟨names, place⟩] [] s
        { s with visited := place :: s.visited } := by
      obtain ⟨trail, hleads, htrail⟩ := hcomes
      exact goes_enter hnew ⟨trail, hleads, fun hmem => hnew (htrail hmem)⟩ hinto rfl
    rcases folder_cases h with ⟨hmem, rfl⟩ | ⟨hnew, hlist, rfl⟩ | ⟨hnew, hlist, hfold⟩
    · exact ⟨[], [], goes_nothing rfl rfl, hmem, fun hno => absurd hmem hno, by simp⟩
    · refine ⟨[⟨names, place⟩], [], ?_, by simp [State.warn], fun _ => by simp, ?_⟩
      · have hstop : Goes plan start [] (fun _ => False) [] []
            { s with visited := place :: s.visited }
            ({ s with visited := place :: s.visited }.warn names
              ("cannot list directory (".toList ++ Cause.denied.message ++ [')'])) :=
          goes_nothing rfl rfl
        exact (henter hnew).trans hstop (by simp) (fun _ _ _ h => h.elim)
          (fun l hl => hl ▸ List.prefix_rfl) (fun _ h => h.elim)
      · intro e he entries hlist'
        rw [List.mem_singleton.1 he, hlist] at hlist'
        cases hlist'
    · have hless := remaining_lt hfolder hnew
      have hinside : ∀ name ∈ plan.tree.names place, ∀ u u' q, place :: s.visited ⊆ u.visited →
          behind plan.tree place name = .ok (some (q, .folder)) →
          isPruned plan (names ++ [name]) = false → folder plan fuel q (names ++ [name]) u = .ok u' →
          Completes plan start [⟨names, place⟩] (names ++ [name]) q u u' := by
        intro name hname u u' q hu hbehind hpruned hwalk
        refine ih (node?_of_behind hbehind) ?_ ?_ (.inr ?_) hwalk
        · exact (remaining_mono hu).trans_lt (hless.trans_le (Nat.lt_succ_iff.1 hfuel))
        · exact (hcomes.step hfolder hnew hname hbehind).mono hu
        · exact ⟨⟨names, place⟩, by simp, name, ⟨_, hlist, hname, hbehind⟩, rfl, hpruned⟩
      obtain ⟨entered, new, hgoes, hdone, hat⟩ := foldlM_meet_goes hlist hinside
        (List.Subset.refl _) (ht.names_pairwise place) (List.Subset.refl _) hfold
      refine ⟨⟨names, place⟩ :: entered, new, ?_, hgoes.visited_subset (by simp),
        fun _ => by simp, fun e he => ?_⟩
      · refine (henter hnew).trans hgoes (by simp) ?_ (fun l hl => hl ▸ List.prefix_rfl) ?_
        · rintro l l' rfl ⟨a, -, r, rfl⟩
          rw [List.append_assoc]
          exact lt_append_cons _ _ _
        · rintro l ⟨a, -, hl⟩
          exact List.IsPrefix.trans ⟨[a], rfl⟩ hl
      · rcases List.mem_cons.1 he with rfl | he
        · intro entries' hlist'
          cases hlist.symm.trans hlist'
          exact hat
        · exact hdone e he

/-- A walk that begins with nothing visited is a visit. -/
theorem Completes.isVisit (h : Completes plan start [] [] start s s') (hnone : s.visited = []) :
    ∃ entered new, s'.visited = (entered.map Entry.place).reverse ∧
      s'.files = s.files ++ new.map (fileAt plan) ∧ IsVisit plan start entered new := by
  obtain ⟨entered, new, hgoes, -, hbegins, hdone⟩ := h
  have hvisited : s'.visited = (entered.map Entry.place).reverse := by
    rw [hgoes.visited, hnone, List.append_nil]
  refine ⟨entered, new, hvisited, hgoes.files, ?_⟩
  exact {
    once := by
      rw [← List.nodup_reverse, ← hvisited]
      exact hgoes.nodup (by simp [hnone])
    order := hgoes.order
    begins := hbegins (by simp [hnone])
    leads := hgoes.leads
    into := by simpa using hgoes.into
    goesOn := by
      rintro d hd e ⟨name, ⟨entries, hlist, hname, hbehind⟩, hnames, hpruned⟩
      rw [hnames] at hpruned
      rw [← List.mem_reverse, ← hvisited]
      exact (hdone d hd entries hlist name hname).folder _ hbehind hpruned
    sorted := hgoes.sorted
    mem_iff := fun l => by
      constructor
      · simpa using hgoes.finds l
      · rintro ⟨e, he, name, q, content, ⟨entries, hlist, hname, hbehind⟩, rfl, hselects⟩
        exact (hdone e he entries hlist name hname).file q content hbehind hselects }

end Folder

/-! ## The walk of a root -/

section Root

variable {tree : FileTree} {here start : Place} {included excluded : List Text}
  {pruned : List (List Glob.Token)} {written : Text} {s s' : State}

/-- The walk of a root enters folders and finds files as a visit does. -/
theorem exists_visit (ht : tree.IsSound)
    (hreach : tree.reach here (Path.ofText written).text = .ok (start, .folder))
    (hpruned : Glob.subtrees excluded = .ok pruned)
    (h : root tree here included excluded written s = .ok s') :
    ∃ entered new, s'.visited = (entered.map Entry.place).reverse ∧
      s'.files = s.files ++ new.map (fileAt (planOf tree here included excluded pruned written)) ∧
        IsVisit (planOf tree here included excluded pruned written) start entered new := by
  obtain ⟨place, pruned', hreach', hpruned', hwalk⟩ := exists_of_root_eq_ok h
  cases hreach.symm.trans hreach'
  cases hpruned.symm.trans hpruned'
  have hcompletes : Completes (planOf tree here included excluded pruned written) start [] [] start
      { s with visited := [] } s' := by
    refine folder_completes ht (node?_of_reach hreach) ?_ (comes_start []) (.inl rfl) hwalk
    rw [planOf_tree, remaining_nil]
    exact Nat.lt_succ_self _
  exact hcompletes.isVisit rfl

end Root

/-! ## The files of a root -/

/-- The names in the path of a file. -/
def segments (f : SourceFile) : List Text := Text.fields '/' f.relativePath

/-- Whether a file is in the folder at a place: the names before its own lead there. -/
def IsIn (t : FileTree) (start p : Place) (f : SourceFile) : Prop :=
  ∃ trail, Leads t start (segments f).dropLast trail p

section Files

variable {plan : Plan} {start : Place} {entered : List Entry} {new : List (List Text)}
  (ht : plan.tree.IsRooted) (hvisit : IsVisit plan start entered new)

include ht hvisit

theorem IsVisit.isName {l : List Text} (hl : l ∈ new) : ∀ n ∈ l, IsName n := by
  obtain ⟨e, he, name, q, content, ⟨entries, hlist, hname, -⟩, rfl, -⟩ := (hvisit.mem_iff l).1 hl
  obtain ⟨trail, hleads, -⟩ := hvisit.leads e he
  intro n hn
  rcases List.mem_append.1 hn with hn | hn
  · exact hleads.isName ht n hn
  · rw [list?] at hlist
    split_ifs at hlist
    cases hlist
    obtain ⟨x, hx⟩ := mem_names.1 hname
    rw [List.mem_singleton.1 hn]
    exact (ht _ _ _ hx).1

omit ht in
theorem IsVisit.folder_of_mem (hstart : plan.tree.node? start = some .folder) {e : Entry}
    (he : e ∈ entered) : plan.tree.node? e.place = some .folder := by
  rcases hvisit.into e he with rfl | ⟨d, -, name, ⟨entries, -, -, hbehind⟩, -⟩
  · exact hstart
  · exact node?_of_behind hbehind

theorem IsVisit.segments_fileAt {l : List Text} (hl : l ∈ new) : segments (fileAt plan l) = l := by
  obtain ⟨e, -, name, -, -, -, hconcat, -⟩ := (hvisit.mem_iff l).1 hl
  exact Text.fields_join (by simp [hconcat]) fun n hn => (hvisit.isName ht hl n hn).no_slash

theorem IsVisit.map_segments : (new.map (fileAt plan)).map segments = new := by
  conv_rhs => rw [← List.map_id new]
  rw [List.map_map]
  exact List.map_congr_left fun l hl => hvisit.segments_fileAt ht hl

/-- A file is in one of the folders that are entered. -/
theorem IsVisit.isIn_iff {l : List Text} (hl : l ∈ new) {p : Place} :
    IsIn plan.tree start p (fileAt plan l) ↔ ⟨l.dropLast, p⟩ ∈ entered := by
  obtain ⟨e, he, name, -, -, -, hconcat, -⟩ := (hvisit.mem_iff l).1 hl
  obtain ⟨trail, hleads, -⟩ := hvisit.leads e he
  have hnames : l.dropLast = e.names := by simp [hconcat]
  rw [IsIn, hvisit.segments_fileAt ht hl, hnames]
  constructor
  · rintro ⟨trail', hleads'⟩
    rwa [hleads.place_unique hleads']
  · intro he'
    obtain ⟨trail', hleads', -⟩ := hvisit.leads _ he'
    exact ⟨trail', hleads'⟩

/-- Two files in the same folder have been found under the same names of the folder. -/
theorem IsVisit.dropLast_eq {l l' : List Text} (hl : l ∈ new) (hl' : l' ∈ new) {p : Place}
    (h : IsIn plan.tree start p (fileAt plan l)) (h' : IsIn plan.tree start p (fileAt plan l')) :
    l.dropLast = l'.dropLast := by
  have hentry := (hvisit.isIn_iff ht hl).1 h
  have hentry' := (hvisit.isIn_iff ht hl').1 h'
  exact congrArg Entry.names (List.inj_on_of_nodup_map hvisit.once hentry hentry' rfl)

end Files

/-- The walk of a root comes to an end, however much more fuel it is given; it lists no folder twice,
and the files it finds are in lexicographic order of their names.  No two of them have the same name in
the same folder, whatever names lead there. -/
theorem root_visits {tree : FileTree} {here start : Place} {included excluded : List Text}
    {written : Text} (ht : tree.IsSound)
    (hreach : tree.reach here (Path.ofText written).text = .ok (start, .folder))
    (hincluded : ∀ p ∈ included, ∃ ts, Glob.parse p = .ok ts)
    (hexcluded : ∀ p ∈ excluded, ∃ ts, Glob.parse p = .ok ts) (s : State) :
    ∃ s' new pruned, Glob.subtrees excluded = .ok pruned ∧
      root tree here included excluded written s = .ok s' ∧
      (∀ fuel, tree.folders.length < fuel →
        folder (planOf tree here included excluded pruned written) fuel start []
          { s with visited := [] } = .ok s') ∧
      s'.visited.Nodup ∧ (∀ p ∈ s'.visited, tree.node? p = some .folder) ∧
      s'.files = s.files ++ new ∧ new.Nodup ∧ (new.map segments).Pairwise (· < ·) ∧
      (∀ f ∈ new, ∃ p ∈ s'.visited, IsIn tree start p f) ∧
      ∀ p, new.Pairwise fun f f' => IsIn tree start p f → IsIn tree start p f' →
        (segments f).getLast? ≠ (segments f').getLast? := by
  obtain ⟨pruned, hpruned, -⟩ := Glob.subtrees_eq_ok hexcluded
  let plan := planOf tree here included excluded pruned written
  have hplan : plan.IsReadable := ⟨hincluded, hexcluded⟩
  have hstart : tree.node? start = some .folder := node?_of_reach hreach
  obtain ⟨s', hwalk⟩ :=
    folder_eq_ok hplan (tree.folders.length + 1) start [] { s with visited := [] }
  have hroot : root tree here included excluded written s = .ok s' := by
    rw [root_of_reach hpruned hreach, hwalk]
  obtain ⟨entered, ls, hvisited, hfiles, hvisit⟩ := exists_visit ht hreach hpruned hroot
  have hsorted : ((ls.map (fileAt plan)).map segments).Pairwise (· < ·) := by
    rw [hvisit.map_segments ht.isRooted]
    exact hvisit.sorted
  refine ⟨s', ls.map (fileAt plan), pruned, hpruned, hroot, fun fuel hfuel => ?_, ?_, fun p hp => ?_,
    hfiles, List.Nodup.of_map _ (hsorted.imp fun h => h.ne), hsorted, fun f hf => ?_, fun p => ?_⟩
  · rw [← hwalk]
    refine folder_of_sameOutline (SameOutline.refl tree) rfl hstart ?_ ?_
    · rwa [remaining_nil]
    · rw [remaining_nil]
      exact Nat.lt_succ_self _
  · rw [hvisited, List.nodup_reverse]
    exact hvisit.once
  · rw [hvisited, List.mem_reverse] at hp
    obtain ⟨e, he, rfl⟩ := List.mem_map.1 hp
    exact hvisit.folder_of_mem hstart he
  · obtain ⟨l, hl, rfl⟩ := List.mem_map.1 hf
    obtain ⟨e, he, name, -, -, -, hconcat, -⟩ := (hvisit.mem_iff l).1 hl
    refine ⟨e.place, ?_, (hvisit.isIn_iff ht.isRooted hl).2 ?_⟩
    · rw [hvisited, List.mem_reverse]
      exact List.mem_map_of_mem he
    · rwa [hconcat, List.dropLast_concat]
  · rw [List.pairwise_map]
    refine hvisit.sorted.imp_of_mem fun {l l'} hl hl' hlt hin hin' hlast => ?_
    rw [hvisit.segments_fileAt ht.isRooted hl, hvisit.segments_fileAt ht.isRooted hl'] at hlast
    have hdrop := hvisit.dropLast_eq ht.isRooted hl hl' hin hin'
    obtain ⟨e, -, name, -, -, -, rfl, -⟩ := (hvisit.mem_iff l).1 hl
    obtain ⟨e', -, name', -, -, -, rfl, -⟩ := (hvisit.mem_iff l').1 hl'
    rw [List.getLast?_concat, List.getLast?_concat, Option.some.injEq] at hlast
    rw [List.dropLast_concat, List.dropLast_concat] at hdrop
    rw [hdrop, hlast] at hlt
    exact lt_irrefl _ hlt

/-- A folder `r` with a file `a`, a link `b` back to the folder and a link `c` that leads nowhere. -/
def looped : FileTree :=
  ⟨[(["r".toList], .folder), (["r".toList, "a".toList], .file (.bytes [])),
    (["r".toList, "b".toList], .link ".".toList), (["r".toList, "c".toList], .link "d".toList)], [], []⟩

theorem isSound_looped : looped.IsSound where
  nodup := by decide
  parent := by
    intro p hp
    simp only [looped, List.mem_cons, List.not_mem_nil, or_false] at hp
    rcases hp with rfl | rfl | rfl | rfl
    · exact ⟨[], _, rfl, isName_singleton (by decide) (by decide), rfl⟩
    · exact ⟨["r".toList], _, rfl, isName_singleton (by decide) (by decide), rfl⟩
    · exact ⟨["r".toList], _, rfl, isName_singleton (by decide) (by decide), rfl⟩
    · exact ⟨["r".toList], _, rfl, isName_singleton (by decide) (by decide), rfl⟩

theorem root_visits_looped :
    ∃ s' new pruned, Glob.subtrees ["c/**".toList] = .ok pruned ∧
      root looped [] [] ["c/**".toList] "r".toList ⟨[], [], []⟩ = .ok s' ∧
      (∀ fuel, looped.folders.length < fuel →
        folder (planOf looped [] [] ["c/**".toList] pruned "r".toList) fuel ["r".toList] []
          ⟨[], [], []⟩ = .ok s') ∧
      s'.visited.Nodup ∧ (∀ p ∈ s'.visited, looped.node? p = some .folder) ∧
      s'.files = [] ++ new ∧ new.Nodup ∧ (new.map segments).Pairwise (· < ·) ∧
      (∀ f ∈ new, ∃ p ∈ s'.visited, IsIn looped ["r".toList] p f) ∧
      ∀ p, new.Pairwise fun f f' => IsIn looped ["r".toList] p f → IsIn looped ["r".toList] p f' →
        (segments f).getLast? ≠ (segments f').getLast? :=
  root_visits isSound_looped (by cbv) (by simp)
    (fun p hp => List.mem_singleton.1 hp ▸ Glob.exists_parse_of_noClass (by decide)) ⟨[], [], []⟩

end InsecureLinks.Walk
