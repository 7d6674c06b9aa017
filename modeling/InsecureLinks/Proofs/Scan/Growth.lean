import Mathlib
import InsecureLinks.Proofs.Files.Growth
import InsecureLinks.Proofs.Scan.Visiting

/-!
# Walks of a tree that has grown

When a tree grows, a walk of it finds the same files as before, up to new ones that are selected
(`roots_of_grows`).  New folders may well be entered, but all that is in them is new.  Only a link
that led nowhere could lead a walk astray, by leading now to a folder that was there before.

Both walks are cut off by the number of folders, which is not the same in the two trees.  What
matters is that it is more than the folders that are still unvisited, and each folder that is
entered leaves one fewer of these (`remaining_lt`).

If nothing at all is new, the two walks are one and the same (`roots_of_sameOutline`).
-/

namespace InsecureLinks.Walk

open FileTree

variable {t t' : FileTree} {start place : Place} {name : Text}

/-! ## What is behind a name -/

/-- Whether what a link leads to that led nowhere before, if it leads somewhere now, is new. -/
def Steady (t t' : FileTree) : Prop :=
  ∀ place, ∀ name ∈ t.names place, behind t place name = .ok none →
    ∀ q x, behind t' place name = .ok (some (q, x)) → t.node? q = none

section Grows

variable (h : Grows t t')

include h

/-- What is behind a name stays there, and of the same kind. -/
theorem behind_of_grows {q : Place} {x : Node} (hbehind : behind t place name = .ok (some (q, x))) :
    ∃ x', behind t' place name = .ok (some (q, x')) ∧ Alike x x' := by
  obtain ⟨x', hwalk, halike⟩ := h.walk_eq_ok (behind_eq_some hbehind)
  exact ⟨x', by rw [behind, hwalk], halike⟩

theorem behind_error_of_grows {c : Cause} (hbehind : behind t place name = .error c) :
    behind t' place name = .error c := by
  have hwalk : t.walk true maxLinks place [name] = .error c ∧ c ≠ .notFound := by
    rw [behind] at hbehind
    split at hbehind
    · cases hbehind
    · cases hbehind
    · cases hbehind
    · next c' hne hwalk =>
      cases hbehind
      exact ⟨hwalk, fun hc => hne hc⟩
  rw [behind, h.walk_eq_error hwalk.1 hwalk.2]
  split
  · next heq => cases heq
  · next heq => cases heq
  · next heq =>
    cases heq
    exact absurd rfl hwalk.2
  · next heq =>
    cases heq
    rfl

/-- A new name leads to what is new under it. -/
theorem behind_of_added {x : Node} (hnew : t.node? (place ++ [name]) = none)
    (hx : t'.node? (place ++ [name]) = some x) :
    behind t' place name = .ok (some (place ++ [name], x)) := by
  obtain ⟨hadd, folder, name', heq, hname, -⟩ := h.added _ _ hnew hx
  obtain ⟨rfl, rfl⟩ : place = folder ∧ name = name' := by simpa using heq
  have hlink : ∀ target, t'.node? (place ++ [name]) ≠ some (.link target) := by
    rw [hx]
    rcases hadd with rfl | ⟨c, rfl⟩
    · simp
    · simp
  rw [behind, walk_last hname.ne_dot hname.ne_dotDot hname.short hlink, hx]

/-- Names lead where they led before. -/
theorem Leads.of_grows {names : List Text} {trail : List Place} {p : Place}
    (hleads : Leads t start names trail p) : Leads t' start names trail p := by
  induction hleads with
  | start => exact .start
  | step _ hfolder hnew hname hbehind ih =>
    obtain ⟨x', hbehind', -⟩ := behind_of_grows h hbehind
    rw [h.names_eq] at hname
    exact ih.step (h.keeps.folder _ hfolder) hnew (List.mem_filter.1 hname).1 hbehind'

end Grows

/-! ## Trees with one outline -/

section SameOutline

variable (h : SameOutline t t')

include h

/-- What is behind a name is the same in trees with one outline, up to what files hold. -/
theorem behind_of_sameOutline (place : Place) (name : Text) :
    (∃ c, behind t place name = .error c ∧ behind t' place name = .error c) ∨
      (behind t place name = .ok none ∧ behind t' place name = .ok none) ∨
      ∃ q x x', behind t place name = .ok (some (q, x)) ∧
        behind t' place name = .ok (some (q, x')) ∧ Alike x x' := by
  rcases hbehind : behind t place name with c | _ | ⟨q, x⟩
  · exact .inl ⟨c, rfl, behind_error_of_grows h.grows hbehind⟩
  · refine .inr (.inl ⟨rfl, ?_⟩)
    rcases hbehind' : behind t' place name with c | _ | ⟨q, x⟩
    · rw [behind_error_of_grows h.symm.grows hbehind'] at hbehind
      cases hbehind
    · rfl
    · obtain ⟨x', hbehind'', -⟩ := behind_of_grows h.symm.grows hbehind'
      rw [hbehind''] at hbehind
      cases hbehind
  · obtain ⟨x', hbehind', halike⟩ := behind_of_grows h.grows hbehind
    exact .inr (.inr ⟨q, x, x', rfl, hbehind', halike⟩)

theorem isLink_of_sameOutline (place : Place) (name : Text) :
    isLink t' place name = isLink t place name := by
  rw [isLink, isLink]
  rcases hx : t.node? (place ++ [name]) with _ | x
  · rw [h.node?_eq_none hx]
  · obtain ⟨x', hx', halike⟩ := h.alike _ _ hx
    rw [hx']
    cases halike <;> rfl

theorem names_of_sameOutline (place : Place) : t'.names place = t.names place := by
  rw [FileTree.names_eq, FileTree.names_eq, h.places]

variable {plan : Plan} (hplan : plan.tree = t)

include hplan

theorem meet_of_sameOutline {enter enter' : Place → List Text → State → Except Glob.Error State}
    {names : List Text} {s : State}
    (henter : ∀ p, t.node? p = some .folder →
      enter p (names ++ [name]) s = enter' p (names ++ [name]) s) :
    meet plan enter place names s name =
      meet { plan with tree := t' } enter' place names s name := by
  subst hplan
  rw [meet, meet]
  dsimp only
  rcases behind_of_sameOutline h place name with ⟨c, hc, hc'⟩ | ⟨hn, hn'⟩ | ⟨q, x, x', hx, hx', halike⟩
  · rw [hc, hc']
  · rw [hn, hn']
  · rw [hx, hx']
    cases halike with
    | file => rfl
    | folder =>
      dsimp only
      rw [henter q (node?_of_behind hx)]
      rfl
    | link | pipe =>
      dsimp only
      rw [isLink_of_sameOutline h]

theorem folder_of_sameOutline {fuel fuel' : ℕ} {names : List Text} {s : State}
    (hfolder : t.node? place = some .folder) (hfuel : remaining t s.visited < fuel)
    (hfuel' : remaining t' s.visited < fuel') :
    folder plan fuel place names s = folder { plan with tree := t' } fuel' place names s := by
  induction fuel generalizing fuel' place names s with
  | zero => exact absurd hfuel (Nat.not_lt_zero _)
  | succ fuel ih =>
    obtain ⟨fuel', rfl⟩ := Nat.exists_eq_add_one_of_ne_zero (Nat.ne_zero_of_lt hfuel')
    rw [folder_succ, folder_succ]
    by_cases hvisited : s.visited.contains place = true
    · rw [if_pos hvisited, if_pos hvisited]
    · have hnew : place ∉ s.visited := by rwa [← List.contains_iff_mem]
      rw [if_neg hvisited, if_neg hvisited, list?, list?]
      dsimp only
      rw [hplan, h.unlistable, names_of_sameOutline h]
      by_cases hbarred : t.unlistable.contains (routeFrom plan.route names) = true
      · rw [if_pos hbarred]
      · rw [if_neg hbarred]
        -- The folder itself is one of the folders that were unvisited, in both trees.
        have hless := remaining_lt hfolder hnew
        have hless' := remaining_lt (h.grows.keeps.folder place hfolder) hnew
        refine foldlM_congr_of_invariant (fun u : State => place :: s.visited ⊆ u.visited)
          (fun name _ u hu => ?_) (fun name _ u u' hu hmeet => ?_) (List.Subset.refl _)
        · refine meet_of_sameOutline h hplan fun p hp => ih hp ?_ ?_
          · exact (remaining_mono hu).trans_lt (hless.trans_le (Nat.lt_succ_iff.1 hfuel))
          · exact (remaining_mono hu).trans_lt (hless'.trans_le (Nat.lt_succ_iff.1 hfuel'))
        · exact List.Subset.trans hu (meet_visited hmeet)

end SameOutline

/-- A walk is the same whatever the files hold. -/
theorem roots_of_sameOutline (h : SameOutline t t') (here : Place)
    (roots included excluded : List Text) :
    Walk.roots t' here roots included excluded = Walk.roots t here roots included excluded := by
  have hroot : ∀ s r, root t' here included excluded r s = root t here included excluded r s := by
    intro s r
    rcases h.reach_cases here (Path.ofText r).text with ⟨c, hc, hc'⟩ | ⟨p, x, x', hx, hx', halike⟩
    · rw [root, root, ask, ask, hc, hc']
    · cases halike with
      | folder =>
        rcases hpruned : Glob.subtrees excluded with e | pruned
        · rw [root, root, ask, ask, hx, hx']
          simp only [hpruned]
        · have hwalk : folder (planOf t here included excluded pruned r) (t.folders.length + 1) p []
                { s with visited := [] } =
              folder (planOf t' here included excluded pruned r) (t'.folders.length + 1) p []
                { s with visited := [] } :=
            folder_of_sameOutline h rfl (node?_of_reach hx)
              (by rw [remaining_nil]; exact Nat.lt_succ_self _)
              (by rw [remaining_nil]; exact Nat.lt_succ_self _)
          rw [root_of_reach hpruned hx, root_of_reach hpruned hx', hwalk]
      | file | link | pipe => rw [root, root, ask, ask, hx, hx']
  rw [Walk.roots, Walk.roots]
  simp only [hroot]

/-! ## Two walks side by side -/

/-- Whether the walk of a tree that has grown is as far as the walk before: of the files that count
it has found the same, and of the folders that were there it has visited the same. -/
structure Follows (counts : SourceFile → Bool) (t : FileTree) (s s' : State) : Prop where
  files : s'.files.filter counts = s.files.filter counts
  visited : ∀ p, t.node? p = some .folder → (p ∈ s'.visited ↔ p ∈ s.visited)

/-- Whether no new file that is selected counts, along all names that lead to it. -/
def LeavesOut (counts : SourceFile → Bool) (plan : Plan) (t t' : FileTree) (start : Place) : Prop :=
  ∀ names trail p content, Leads t' start names trail p → t.node? p = none →
    t'.node? p = some (.file content) → selects plan (relative names) = .ok true →
    counts ⟨plan.root, relative names⟩ = false

section Follows

variable {counts : SourceFile → Bool} {s s' s'' : State}

theorem Follows.refl (counts : SourceFile → Bool) (t : FileTree) (s : State) :
    Follows counts t s s := ⟨rfl, fun _ _ => Iff.rfl⟩

theorem Follows.warn (counts : SourceFile → Bool) (t : FileTree) (s : State) (names : List Text)
    (message : Text) : Follows counts t s (s.warn names message) := ⟨rfl, fun _ _ => Iff.rfl⟩

theorem Follows.trans (h : Follows counts t s s') (h' : Follows counts t s' s'') :
    Follows counts t s s'' :=
  ⟨h'.files.trans h.files, fun p hp => (h'.visited p hp).trans (h.visited p hp)⟩

/-- Skipping a name in both walks. -/
theorem Follows.skips (h : Follows counts t s s') {s₁ s₁' : State} {names : List Text}
    (hs : Skips names s s₁) (hs' : Skips names s' s₁') : Follows counts t s₁ s₁' :=
  ⟨by rw [hs.files, hs'.files, h.files],
    fun p hp => by rw [hs.visited, hs'.visited, h.visited p hp]⟩

/-- Entering a folder in both walks. -/
theorem Follows.enter (h : Follows counts t s s') (place : Place) :
    Follows counts t { s with visited := place :: s.visited }
      { s' with visited := place :: s'.visited } :=
  ⟨h.files, fun p hp => by simp [h.visited p hp]⟩

/-- Entering a folder that was not there. -/
theorem Follows.enter_added (h : Follows counts t s s') (hnew : t.node? place = none) :
    Follows counts t s { s' with visited := place :: s'.visited } := by
  refine ⟨h.files, fun p hp => ?_⟩
  have hne : p ≠ place := by
    rintro rfl
    rw [hnew] at hp
    cases hp
  simp [hne, h.visited p hp]

end Follows

section Walks

variable {counts : SourceFile → Bool} {plan : Plan}

/-- At a name behind which is what was there, both walks do the same, if they do so in the folders
that were there. -/
theorem meet_alike {enter enter' : Place → List Text → State → Except Glob.Error State}
    {names : List Text} {s s' s₁ s₁' : State} {q : Place} {x x' : Node} (halike : Alike x x')
    (hbehind : behind plan.tree place name = .ok (some (q, x)))
    (hbehind' : behind t' place name = .ok (some (q, x'))) (hfollows : Follows counts t s s')
    (henter : x = .folder → enter q (names ++ [name]) s = .ok s₁ →
      enter' q (names ++ [name]) s' = .ok s₁' → Follows counts t s₁ s₁')
    (hmeets : Meets plan enter place names s name s₁)
    (hmeets' : Meets { plan with tree := t' } enter' place names s' name s₁') :
    Follows counts t s₁ s₁' := by
  cases hmeets with
  | skips hs hpruned hselects =>
    cases hmeets' with
    | skips hs' => exact hfollows.skips hs hs'
    | enters hq hno =>
      cases hbehind'.symm.trans hq
      cases halike
      cases hno.symm.trans (hpruned q hbehind)
    | takes hq hyes =>
      cases hbehind'.symm.trans hq
      cases halike
      cases hyes.symm.trans (hselects q _ hbehind)
  | enters hq hno hwalk =>
    cases hbehind.symm.trans hq
    cases halike
    cases hmeets' with
    | skips _ hpruned => cases hno.symm.trans (hpruned q hbehind')
    | enters hq' _ hwalk' =>
      cases hbehind'.symm.trans hq'
      exact henter rfl hwalk hwalk'
    | takes hq' => cases hbehind'.symm.trans hq'
  | takes hq hyes =>
    cases hbehind.symm.trans hq
    cases halike
    cases hmeets' with
    | skips _ _ hselects => cases hyes.symm.trans (hselects q _ hbehind')
    | enters hq' => cases hbehind'.symm.trans hq'
    | takes =>
      refine ⟨?_, hfollows.visited⟩
      rw [List.filter_append, List.filter_append, hfollows.files]

variable (hout : LeavesOut counts plan t t' start)

include hout

/-- Behind a name that leads to what is new nothing is found that counts, if this is so in new
folders. -/
theorem meet_added {enter : Place → List Text → State → Except Glob.Error State}
    {names : List Text} {s s' : State}
    (henter : ∀ p names s', t.node? p = none → t'.node? p = some .folder →
      Comes t' start s.visited names p → enter p names s = .ok s' → Follows counts t s s')
    (hcomes : ∀ q x, behind t' place name = .ok (some (q, x)) →
      t.node? q = none ∧ Comes t' start s.visited (names ++ [name]) q)
    (hmeet : meet { plan with tree := t' } enter place names s name = .ok s') :
    Follows counts t s s' := by
  cases meets_of_meet hmeet with
  | skips hs => exact (Follows.refl counts t s).skips (.inl rfl) hs
  | enters hbehind _ hwalk =>
    obtain ⟨hnew, hq⟩ := hcomes _ _ hbehind
    exact henter _ _ s' hnew (node?_of_behind hbehind) hq hwalk
  | takes hbehind hselects =>
    obtain ⟨hnew, trail, hleads, -⟩ := hcomes _ _ hbehind
    refine ⟨?_, fun _ _ => Iff.rfl⟩
    rw [List.filter_append, List.filter_singleton,
      hout _ _ _ _ hleads hnew (node?_of_behind hbehind) hselects]
    simp

variable (h : Grows t t') (ht : t.IsRooted)

include h ht

/-- In a new folder everything is new, and nothing is found that counts. -/
theorem folder_added {fuel : ℕ} {names : List Text} {s s' : State} (hnew : t.node? place = none)
    (hfolder : t'.node? place = some .folder) (hcomes : Comes t' start s.visited names place)
    (hwalk : folder { plan with tree := t' } fuel place names s = .ok s') :
    Follows counts t s s' := by
  have hself := Follows.refl counts t s
  induction fuel generalizing place names s s' with
  | zero =>
    cases hwalk
    exact hself
  | succ fuel ih =>
    rcases folder_cases hwalk with ⟨-, rfl⟩ | ⟨-, -, rfl⟩ | ⟨hunvisited, -, hfold⟩
    · exact hself
    · have hentered := hself.enter_added hnew
      exact ⟨hentered.files, hentered.visited⟩
    · let R (u : State) : Prop := Follows counts t s u ∧ place :: s.visited ⊆ u.visited
      have hstep : ∀ name ∈ t'.names place, ∀ u u' : State, R u →
          meet { plan with tree := t' } (folder { plan with tree := t' } fuel) place names u name =
            .ok u' → R u' := by
        rintro name hname u u' ⟨hfollows, hu⟩ hmeet
        have hname' : t.node? (place ++ [name]) = none := by
          rw [Option.eq_none_iff_forall_ne_some]
          intro x hx
          rw [(ht place name x hx).2] at hnew
          cases hnew
        obtain ⟨x, hx⟩ := mem_names.1 hname
        have hbehind := behind_of_added h hname' hx
        have hadded : Follows counts t u u' := by
          refine meet_added hout (fun p names s' hp hp' hcomes hwalk =>
            ih hp hp' hcomes hwalk (.refl counts t u)) (fun q y hq => ?_) hmeet
          cases hbehind.symm.trans hq
          exact ⟨hname', (hcomes.step hfolder hunvisited hname hbehind).mono hu⟩
        exact ⟨hfollows.trans hadded, List.Subset.trans hu (meet_visited hmeet)⟩
      exact (foldlM_invariant R hstep ⟨hself.enter_added hnew, List.Subset.refl _⟩ hfold).1

/-- Behind a name that leads to what is new nothing is found that counts. -/
theorem meet_folder_added {fuel : ℕ} {names : List Text} {s s' : State}
    (hcomes : ∀ q x, behind t' place name = .ok (some (q, x)) →
      t.node? q = none ∧ Comes t' start s.visited (names ++ [name]) q)
    (hmeet : meet { plan with tree := t' } (folder { plan with tree := t' } fuel) place names s
      name = .ok s') : Follows counts t s s' :=
  meet_added hout (fun _ _ _ hnew hfolder hcomes hwalk =>
    folder_added hout h ht hnew hfolder hcomes hwalk) hcomes hmeet

variable (hsteady : Steady t t') (hplan : plan.tree = t)

include hsteady hplan

/-- At a name that was there, both walks do the same, if they do so in the folders that were
there. -/
theorem meet_kept {fuel' : ℕ} {enter : Place → List Text → State → Except Glob.Error State}
    {names : List Text} {s s' s₁ s₁' : State} (hname : name ∈ t.names place)
    (hcomes : ∀ q x, behind t' place name = .ok (some (q, x)) →
      Comes t' start s'.visited (names ++ [name]) q)
    (hfollows : Follows counts t s s')
    (henter : ∀ p names, t.node? p = some .folder → Comes t' start s'.visited names p →
      enter p names s = .ok s₁ →
      folder { plan with tree := t' } fuel' p names s' = .ok s₁' → Follows counts t s₁ s₁')
    (hmeet : meet plan enter place names s name = .ok s₁)
    (hmeet' : meet { plan with tree := t' } (folder { plan with tree := t' } fuel') place names s'
      name = .ok s₁') : Follows counts t s₁ s₁' := by
  subst hplan
  have hmeets := meets_of_meet hmeet
  have hmeets' := meets_of_meet hmeet'
  rcases hbehind : behind plan.tree place name with c | _ | ⟨q, x⟩
  · have hbehind' := behind_error_of_grows h hbehind
    exact hfollows.skips (hmeets.skips_of_behind (by simp [hbehind]))
      (hmeets'.skips_of_behind (by simp [hbehind']))
  · -- The link led nowhere, so what it leads to now is new.
    have hadded := meet_folder_added hout h ht
      (fun q x hq => ⟨hsteady place name hname hbehind q x hq, hcomes q x hq⟩) hmeet'
    exact (hfollows.trans hadded).skips (hmeets.skips_of_behind (by simp [hbehind])) (.inl rfl)
  · obtain ⟨x', hbehind', halike⟩ := behind_of_grows h hbehind
    refine meet_alike halike hbehind hbehind' hfollows (fun hx => ?_) hmeets hmeets'
    subst hx
    exact henter q _ (node?_of_behind hbehind) (hcomes q x' hbehind')

/-- In a folder that was there, both walks do the same at all names that were there, and the other
names lead to what is new. -/
theorem foldlM_meet_kept {fuel fuel' : ℕ} {names : List Text} {s s' s₁ s₁' : State}
    (hfolder : t'.node? place = some .folder) (hcomes : Comes t' start s'.visited names place)
    (hnew : place ∉ s'.visited) (hfollows : Follows counts t s s')
    (henter : ∀ p names u u' u₁ u₁', place :: s.visited ⊆ u.visited →
      place :: s'.visited ⊆ u'.visited → t.node? p = some .folder →
      Comes t' start u'.visited names p → Follows counts t u u' →
      folder plan fuel p names u = .ok u₁ →
      folder { plan with tree := t' } fuel' p names u' = .ok u₁' → Follows counts t u₁ u₁')
    (hfold : (t.names place).foldlM (meet plan (folder plan fuel) place names)
      { s with visited := place :: s.visited } = .ok s₁)
    (hfold' : (t'.names place).foldlM
      (meet { plan with tree := t' } (folder { plan with tree := t' } fuel') place names)
      { s' with visited := place :: s'.visited } = .ok s₁') : Follows counts t s₁ s₁' := by
  let R (u u' : State) : Prop := Follows counts t u u' ∧ place :: s.visited ⊆ u.visited ∧
    place :: s'.visited ⊆ u'.visited
  have hbehind : ∀ name ∈ t'.names place, ∀ u' : State, place :: s'.visited ⊆ u'.visited →
      ∀ q x, behind t' place name = .ok (some (q, x)) →
        Comes t' start u'.visited (names ++ [name]) q :=
    fun name hname u' hu' q x hq => (hcomes.step hfolder hnew hname hq).mono hu'
  have hstep : ∀ name ∈ t'.names place, (t.node? (place ++ [name])).isSome = true →
      ∀ u u' u₁ u₁', R u u' → meet plan (folder plan fuel) place names u name = .ok u₁ →
        meet { plan with tree := t' } (folder { plan with tree := t' } fuel') place names u'
          name = .ok u₁' → R u₁ u₁' := by
    rintro name hname hkeep u u' u₁ u₁' ⟨hfollows, hu, hu'⟩ hmeet hmeet'
    have hname' : name ∈ t.names place := by
      rw [h.names_eq place]
      exact List.mem_filter.2 ⟨hname, hkeep⟩
    have hkept := meet_kept hout h ht hsteady hplan hname' (hbehind name hname u' hu') hfollows
      (fun p names hp hcomes hwalk hwalk' =>
        henter p names u u' u₁ u₁' hu hu' hp hcomes hfollows hwalk hwalk') hmeet hmeet'
    exact ⟨hkept, List.Subset.trans hu (meet_visited hmeet),
      List.Subset.trans hu' (meet_visited hmeet')⟩
  have hskip : ∀ name ∈ t'.names place, (t.node? (place ++ [name])).isSome = false →
      ∀ u u' u₁', R u u' → meet { plan with tree := t' }
        (folder { plan with tree := t' } fuel') place names u' name = .ok u₁' → R u u₁' := by
    rintro name hname hkeep u u' u₁' ⟨hfollows, hu, hu'⟩ hmeet'
    have hnone : t.node? (place ++ [name]) = none := by simpa using hkeep
    obtain ⟨x, hx⟩ := mem_names.1 hname
    have hadded : Follows counts t u' u₁' := by
      refine meet_folder_added hout h ht
        (fun q y hq => ⟨?_, hbehind name hname u' hu' q y hq⟩) hmeet'
      cases (behind_of_added h hnone hx).symm.trans hq
      exact hnone
    exact ⟨hfollows.trans hadded, hu, List.Subset.trans hu' (meet_visited hmeet')⟩
  rw [h.names_eq place] at hfold
  exact (foldlM_filter_related _ hstep hskip
    ⟨hfollows.enter place, List.Subset.refl _, List.Subset.refl _⟩ hfold hfold').1

/-- A walk of a folder that was there finds what it found before, as far as it counts. -/
theorem folder_kept {fuel fuel' : ℕ} {names : List Text} {s s' s₁ s₁' : State}
    (hfolder : t.node? place = some .folder) (hcomes : Comes t' start s'.visited names place)
    (hfollows : Follows counts t s s') (hfuel : remaining t s.visited < fuel)
    (hfuel' : remaining t' s'.visited < fuel') (hwalk : folder plan fuel place names s = .ok s₁)
    (hwalk' : folder { plan with tree := t' } fuel' place names s' = .ok s₁') :
    Follows counts t s₁ s₁' := by
  induction fuel generalizing fuel' place names s s' s₁ s₁' with
  | zero => exact absurd hfuel (Nat.not_lt_zero _)
  | succ fuel ih =>
    obtain ⟨fuel', rfl⟩ := Nat.exists_eq_add_one_of_ne_zero (Nat.ne_zero_of_lt hfuel')
    have hfolder' := h.keeps.folder place hfolder
    have hsame := hfollows.visited place hfolder
    -- Whether a folder has been visited and whether it can be listed is the same in both walks.
    have hlist : list? { plan with tree := t' } place names = none ↔ list? plan place names = none := by
      rw [list?_eq_none, list?_eq_none, hplan]
      dsimp only
      rw [h.unlistable]
    rcases folder_cases hwalk with ⟨hmem, rfl⟩ | ⟨hnew, hbarred, rfl⟩ | ⟨hnew, hentries, hfold⟩
    · rcases folder_cases hwalk' with ⟨-, rfl⟩ | ⟨hnew', -⟩ | ⟨hnew', -⟩
      · exact hfollows
      · exact absurd (hsame.2 hmem) hnew'
      · exact absurd (hsame.2 hmem) hnew'
    · rcases folder_cases hwalk' with ⟨hmem', -⟩ | ⟨-, -, rfl⟩ | ⟨-, hentries', -⟩
      · exact absurd (hsame.1 hmem') hnew
      · exact (hfollows.enter place).skips (.inr ⟨_, rfl⟩) (.inr ⟨_, rfl⟩)
      · cases hentries'.symm.trans (hlist.2 hbarred)
    · rcases folder_cases hwalk' with ⟨hmem', -⟩ | ⟨-, hbarred', -⟩ | ⟨hnew', -, hfold'⟩
      · exact absurd (hsame.1 hmem') hnew
      · cases hentries.symm.trans (hlist.1 hbarred')
      · -- The folder itself is one of the folders that were unvisited, in both trees.
        have hless := remaining_lt hfolder hnew
        have hless' := remaining_lt hfolder' hnew'
        rw [hplan] at hfold
        refine foldlM_meet_kept hout h ht hsteady hplan hfolder' hcomes hnew' hfollows
          (fun p names u u' u₁ u₁' hu hu' hp hcomes hfollows => ih hp hcomes hfollows ?_ ?_) hfold
          hfold'
        · exact (remaining_mono hu).trans_lt (hless.trans_le (Nat.lt_succ_iff.1 hfuel))
        · exact (remaining_mono hu').trans_lt (hless'.trans_le (Nat.lt_succ_iff.1 hfuel'))

end Walks

/-! ## All roots -/

/-- A walk of a tree that has grown finds what it found before, up to new files that do not
count. -/
theorem roots_of_grows {counts : SourceFile → Bool} {here : Place}
    {roots included excluded : List Text} (h : Grows t t') (hsteady : Steady t t')
    (ht : t.IsRooted)
    (hout : ∀ r ∈ roots, ∀ start pruned,
      t.reach here (Path.ofText r).text = .ok (start, .folder) →
      LeavesOut counts (planOf t here included excluded pruned r) t t' start)
    {found found' : List SourceFile} {met met' : List Diagnostic}
    (hroots : Walk.roots t here roots included excluded = .ok (found, met))
    (hroots' : Walk.roots t' here roots included excluded = .ok (found', met')) :
    found'.filter counts = found.filter counts := by
  rw [Walk.roots, bind_eq_ok] at hroots hroots'
  obtain ⟨s, hs, hfound⟩ := hroots
  obtain ⟨s', hs', hfound'⟩ := hroots'
  cases hfound
  cases hfound'
  let R (u u' : State) : Prop := u'.files.filter counts = u.files.filter counts
  have hstep : ∀ r ∈ roots, ∀ u u' u₁ u₁' : State, R u u' →
      root t here included excluded r u = .ok u₁ → root t' here included excluded r u' = .ok u₁' →
      R u₁ u₁' := by
    intro r hr u u' u₁ u₁' hR hroot hroot'
    obtain ⟨start, pruned, hreach, hpruned, hwalk⟩ := exists_of_root_eq_ok hroot
    obtain ⟨start', pruned', hreach', hpruned', hwalk'⟩ := exists_of_root_eq_ok hroot'
    obtain rfl : pruned = pruned' := Except.ok.inj (hpruned.symm.trans hpruned')
    have hfolder := node?_of_reach hreach
    rw [h.keeps.reach_eq_ok hreach (h.keeps.folder start hfolder) (by simp)] at hreach'
    cases hreach'
    have hfollows : Follows counts t { u with visited := [] } { u' with visited := [] } :=
      ⟨hR, fun _ _ => Iff.rfl⟩
    exact (folder_kept (hout r hr start pruned hreach) h ht hsteady rfl hfolder (comes_start [])
      hfollows (by rw [remaining_nil]; exact Nat.lt_succ_self _)
      (by rw [remaining_nil]; exact Nat.lt_succ_self _) hwalk hwalk').files
  exact foldlM_related hstep rfl hs hs'

end InsecureLinks.Walk
