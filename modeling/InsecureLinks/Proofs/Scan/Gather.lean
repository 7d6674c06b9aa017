import Mathlib
import InsecureLinks.Proofs.Scan.Visiting

/-!
# What a walk gathers

Where there are no links, a walk carries its state along without ever asking for it: no folder is
come to twice, and the fuel lasts.  `gather` is the walk without the state.  It lists, in walk order,
what the walk comes upon and wants to keep; the files and the diagnostics of the walk are two such
lists (`folder_adds`).  A list that is gathered is in lexicographic order (`gather_pairwise`) and
holds all that can be reached without going through a folder that is passed over (`mem_gather`).
-/

namespace InsecureLinks.Walk

open FileTree

section Gather

variable (plan : Plan) (place : Place) (keep : List Text → Node → Bool)

/-- What is gathered at the names `names`, when `inside` gathers in a folder. -/
def gatherAt (inside : List Text → List (List Text)) (names : List Text) : List (List Text) :=
  match plan.tree.node? (place ++ names) with
  | some .folder => if isPruned plan names then [] else inside names
  | some x => if keep names x then [names] else []
  | none => []

/-- The names, from the root at `place`, of what a walk comes upon in the folder `names` and
`keep` wants to keep. -/
def gather : (fuel : ℕ) → (names : List Text) → List (List Text)
  | 0, _ => []
  | fuel + 1, names =>
    (if keep names .folder then [names] else []) ++
      if place ++ names ∈ plan.tree.unlistable then []
      else
        (plan.tree.names (place ++ names)).flatMap fun name =>
          gatherAt plan place keep (gather fuel) (names ++ [name])

/-- The files that the patterns select. -/
def keepSelected (names : List Text) (x : Node) : Bool :=
  isFile x && match selects plan (relative names) with
    | .ok b => b
    | .error _ => false

/-- The folders that cannot be listed. -/
def keepBarred (names : List Text) (x : Node) : Bool :=
  isFolder x && decide (place ++ names ∈ plan.tree.unlistable)

/-- The file at `names`. -/
def fileAt (names : List Text) : SourceFile := ⟨plan.root, relative names⟩

/-- The diagnostic for the folder at `names`, which cannot be listed. -/
def barredAt (names : List Text) : Diagnostic :=
  Diagnostic.unreadable (if names = [] then Path.dot else relative names)
    "cannot list directory (Permission denied)".toList

end Gather

/-! ## The state of a walk -/

/-- Whether a walk adds some files and diagnostics to its state, and visits only folders of which
`P` holds. -/
def Adds (plan : Plan) (P : Place → Prop) (files barred : List (List Text)) (s s' : State) : Prop :=
  ∃ visited, (∀ v ∈ visited, P v) ∧
    s' = ⟨visited ++ s.visited, s.files ++ files.map (fileAt plan),
      s.diagnostics ++ barred.map barredAt⟩

section Adds

variable {plan : Plan} {P Q : Place → Prop} {s s' s'' : State}
  {files files' barred barred' : List (List Text)}

theorem adds_nothing (plan : Plan) (P : Place → Prop) (s : State) : Adds plan P [] [] s s :=
  ⟨[], by simp, by simp⟩

theorem Adds.trans (h : Adds plan P files barred s s') (h' : Adds plan P files' barred' s' s'') :
    Adds plan P (files ++ files') (barred ++ barred') s s'' := by
  obtain ⟨v, hv, rfl⟩ := h
  obtain ⟨v', hv', rfl⟩ := h'
  refine ⟨v' ++ v, fun p hp => ?_, by simp⟩
  exact (List.mem_append.1 hp).elim (hv' p) (hv p)

theorem Adds.mono (h : Adds plan P files barred s s') (hPQ : ∀ v, P v → Q v) :
    Adds plan Q files barred s s' := by
  obtain ⟨v, hv, hs'⟩ := h
  exact ⟨v, fun p hp => hPQ p (hv p hp), hs'⟩

theorem Adds.visited (h : Adds plan P files barred s s') {v : Place} (hv : v ∈ s'.visited) :
    P v ∨ v ∈ s.visited := by
  obtain ⟨vs, hvs, rfl⟩ := h
  exact (List.mem_append.1 hv).imp_left (hvs v)

end Adds

/-- What is recorded for a folder that cannot be listed. -/
theorem warn_eq_barredAt (s : State) (names : List Text) :
    s.warn names ("cannot list directory (".toList ++ Cause.denied.message ++ [')']) =
      { s with diagnostics := s.diagnostics ++ [barredAt names] } := by
  have hmessage : "cannot list directory (".toList ++ Cause.denied.message ++ [')'] =
      "cannot list directory (Permission denied)".toList := by decide
  rw [State.warn, hmessage, barredAt]
  simp only [List.isEmpty_iff]

/-! ## The walk and what it gathers -/

section Walk

variable {plan : Plan} {place : Place} (ht : plan.tree.IsSound)
  (hlinks : plan.tree.IsLinkFree) (hroute : plan.route = place)

theorem routeFrom_of_names {start : Route} {names : List Text}
    (h : ∀ n ∈ names, n ≠ Path.dotDot) : routeFrom start names = start ++ names := by
  induction names generalizing start with
  | nil => simp [routeFrom]
  | cons n ns ih =>
    rw [routeFrom, List.foldl_cons, if_neg (h n (by simp)), ← routeFrom,
      ih fun m hm => h m (by simp [hm])]
    simp

theorem meetFile_adds (P : Place → Prop) (content : Content) {names : List Text} {s s' : State}
    (h : meetFile plan names s = .ok s') :
    Adds plan P (if keepSelected plan names (.file content) then [names] else []) [] s s' := by
  rw [meetFile] at h
  obtain ⟨b, hb, h⟩ := bind_eq_ok.1 h
  rw [keepSelected, hb]
  rcases b with _ | _
  · cases h
    exact adds_nothing ..
  · cases h
    exact ⟨[], by simp, by simp [isFile, fileAt]⟩

section Step

variable {fuel : ℕ}
  (ih : ∀ (names : List Text) (s s' : State), plan.tree.node? (place ++ names) = some .folder →
    (∀ v ∈ s.visited, ¬place ++ names <+: v) →
    folder plan fuel (place ++ names) names s = .ok s' →
      Adds plan (place ++ names <+: ·) (gather plan place (keepSelected plan) fuel names)
        (gather plan place (keepBarred plan place) fuel names) s s')

include ht hlinks ih

/-- What a walk does at one name in a folder. -/
theorem meet_adds {names : List Text} {name : Text} {s s' : State}
    (hname : ∃ x, plan.tree.node? (place ++ (names ++ [name])) = some x)
    (hfresh : ∀ v ∈ s.visited, ¬place ++ (names ++ [name]) <+: v)
    (h : meet plan (folder plan fuel) (place ++ names) names s name = .ok s') :
    Adds plan (place ++ (names ++ [name]) <+: ·)
      (gatherAt plan place (keepSelected plan) (gather plan place (keepSelected plan) fuel)
        (names ++ [name]))
      (gatherAt plan place (keepBarred plan place) (gather plan place (keepBarred plan place) fuel)
        (names ++ [name])) s s' := by
  obtain ⟨x, hx⟩ := hname
  have hbehind := behind_of_node? ht hlinks (by rwa [← List.append_assoc] at hx)
  rw [List.append_assoc] at hbehind
  rw [meet, hbehind] at h
  rw [gatherAt, gatherAt, hx]
  cases x with
  | folder =>
    dsimp only at h ⊢
    by_cases hpruned : isPruned plan (names ++ [name]) = true
    · rw [if_pos hpruned] at h
      rw [if_pos hpruned, if_pos hpruned]
      cases h
      exact adds_nothing ..
    · rw [if_neg hpruned] at h
      rw [if_neg hpruned, if_neg hpruned]
      exact ih _ s s' hx hfresh h
  | file content =>
    have hadds := meetFile_adds (place ++ (names ++ [name]) <+: ·) content h
    simpa [keepBarred, isFolder] using hadds
  | link target => exact absurd hx (hlinks _ _)
  | pipe =>
    have hlink : isLink plan.tree (place ++ names) name = false := by
      rw [isLink, List.append_assoc, hx]
    dsimp only at h
    rw [hlink] at h
    cases h
    exact adds_nothing ..

/-- What a walk does at some names in a folder, one after another. -/
theorem foldlM_meet_adds {names entries : List Text} {s s' : State}
    (hentries : ∀ name ∈ entries, ∃ x, plan.tree.node? (place ++ (names ++ [name])) = some x)
    (hnodup : entries.Nodup)
    (hfresh : ∀ v ∈ s.visited, ∀ name ∈ entries, ¬place ++ (names ++ [name]) <+: v)
    (h : entries.foldlM (meet plan (folder plan fuel) (place ++ names) names) s = .ok s') :
    Adds plan (place ++ names <+: ·)
      (entries.flatMap fun name => gatherAt plan place (keepSelected plan)
        (gather plan place (keepSelected plan) fuel) (names ++ [name]))
      (entries.flatMap fun name => gatherAt plan place (keepBarred plan place)
        (gather plan place (keepBarred plan place) fuel) (names ++ [name])) s s' := by
  induction entries generalizing s with
  | nil =>
    cases h
    exact adds_nothing ..
  | cons name entries ih' =>
    obtain ⟨hnew, hnodup⟩ := List.nodup_cons.1 hnodup
    rw [List.foldlM_cons] at h
    obtain ⟨s₁, hs₁, hs₂⟩ := bind_eq_ok.1 h
    have hadds₁ := meet_adds ht hlinks ih (hentries name (by simp))
      (fun v hv => hfresh v hv name (by simp)) hs₁
    have hfresh₁ : ∀ v ∈ s₁.visited, ∀ m ∈ entries, ¬place ++ (names ++ [m]) <+: v := by
      intro v hv m hm hprefix
      rcases hadds₁.visited hv with hv | hv
      · -- Names beneath different entries of a folder are different.
        have hsame : place ++ (names ++ [m]) = place ++ (names ++ [name]) :=
          (List.prefix_of_prefix_length_le hprefix hv (by simp)).eq_of_length (by simp)
        obtain rfl : m = name := by simpa using hsame
        exact hnew hm
      · exact hfresh v hv m (by simp [hm]) hprefix
    have hadds₂ := ih' (fun m hm => hentries m (by simp [hm])) hnodup hfresh₁ hs₂
    rw [List.flatMap_cons, List.flatMap_cons]
    refine (hadds₁.mono fun v hv => ?_).trans hadds₂
    exact List.IsPrefix.trans ⟨[name], by simp⟩ hv

end Step

include ht hlinks hroute

/-- A walk through a folder that it has not come to adds what is gathered there. -/
theorem folder_adds {fuel : ℕ} {names : List Text} {s s' : State}
    (hfolder : plan.tree.node? (place ++ names) = some .folder)
    (hfresh : ∀ v ∈ s.visited, ¬place ++ names <+: v)
    (h : folder plan fuel (place ++ names) names s = .ok s') :
    Adds plan (place ++ names <+: ·) (gather plan place (keepSelected plan) fuel names)
      (gather plan place (keepBarred plan place) fuel names) s s' := by
  induction fuel generalizing names s s' with
  | zero =>
    cases h
    exact adds_nothing ..
  | succ fuel ih =>
    have hroute' : routeFrom plan.route names = place ++ names := by
      rw [hroute, routeFrom_of_names]
      exact fun n hn => (ht.isName hfolder n (List.mem_append_right _ hn)).ne_dotDot
    have henter : Adds plan (place ++ names <+: ·) [] [] s
        { s with visited := (place ++ names) :: s.visited } :=
      ⟨[place ++ names], by simp, by simp⟩
    have hselected : keepSelected plan names .folder = false := rfl
    have hbarred : keepBarred plan place names .folder =
        decide (place ++ names ∈ plan.tree.unlistable) := by
      simp [keepBarred, isFolder]
    rw [gather, gather, hselected, hbarred]
    rcases folder_cases h with ⟨hmem, -⟩ | ⟨-, hnone, rfl⟩ | ⟨-, hsome, hfold⟩
    · exact absurd List.prefix_rfl (hfresh _ hmem)
    · have hlist : place ++ names ∈ plan.tree.unlistable := hroute' ▸ list?_eq_none.1 hnone
      simp only [hlist, decide_true, if_true, Bool.false_eq_true, if_false, List.append_nil,
        warn_eq_barredAt]
      exact ⟨[place ++ names], by simp, by simp⟩
    · have hlist : place ++ names ∉ plan.tree.unlistable := by
        intro hmem
        cases hsome.symm.trans (list?_eq_none.2 (hroute'.symm ▸ hmem))
      have hentries : ∀ name ∈ plan.tree.names (place ++ names),
          ∃ x, plan.tree.node? (place ++ (names ++ [name])) = some x := by
        intro name hname
        rw [← List.append_assoc]
        exact mem_names.1 hname
      have hbeneath : ∀ v ∈ (place ++ names) :: s.visited,
          ∀ name ∈ plan.tree.names (place ++ names), ¬place ++ (names ++ [name]) <+: v := by
        intro v hv name _ hprefix
        rcases List.mem_cons.1 hv with rfl | hv
        · simpa using hprefix.length_le
        · exact hfresh v hv (List.IsPrefix.trans ⟨[name], by simp⟩ hprefix)
      have hadds := foldlM_meet_adds ht hlinks (fun _ _ _ => ih) hentries
        (ht.names_pairwise _).nodup hbeneath hfold
      simpa [hlist] using henter.trans hadds

end Walk

/-! ## The order of what is gathered -/

section Order

variable {plan : Plan} {place : Place} {keep : List Text → Node → Bool}

theorem lt_append_cons (names : List Text) (a : Text) (r : List Text) : names < names ++ a :: r := by
  induction names with
  | nil => exact List.nil_lt_cons a r
  | cons n names ih => exact List.cons_lt_cons_iff.2 (.inr ⟨rfl, ih⟩)

theorem lt_of_prefix_of_lt {names l l' : List Text} {a b : Text} (hab : a < b)
    (hl : names ++ [a] <+: l) (hl' : names ++ [b] <+: l') : l < l' := by
  obtain ⟨r, rfl⟩ := hl
  obtain ⟨r', rfl⟩ := hl'
  induction names with
  | nil => exact List.cons_lt_cons_iff.2 (.inl hab)
  | cons n names ih => exact List.cons_lt_cons_iff.2 (.inr ⟨rfl, ih⟩)

theorem mem_gatherAt {inside : List Text → List (List Text)} {names l : List Text} :
    l ∈ gatherAt plan place keep inside names ↔
      plan.tree.node? (place ++ names) = some .folder ∧ isPruned plan names = false ∧
          l ∈ inside names ∨
        ∃ x, plan.tree.node? (place ++ names) = some x ∧ x ≠ .folder ∧ keep names x = true ∧
          l = names := by
  rw [gatherAt]
  rcases hnode : plan.tree.node? (place ++ names) with _ | x
  · simp
  · cases x with
    | folder => by_cases hpruned : isPruned plan names = true <;> simp [hpruned]
    | file | link | pipe => simp

theorem prefix_of_mem_gather {fuel : ℕ} {names l : List Text}
    (h : l ∈ gather plan place keep fuel names) : names <+: l := by
  induction fuel generalizing names with
  | zero => cases h
  | succ fuel ih =>
    rw [gather] at h
    rcases List.mem_append.1 h with h | h
    · split_ifs at h
      · rw [List.mem_singleton.1 h]
      · cases h
    · split_ifs at h
      · cases h
      · obtain ⟨name, -, h⟩ := List.mem_flatMap.1 h
        refine List.IsPrefix.trans ⟨[name], rfl⟩ ?_
        rcases mem_gatherAt.1 h with ⟨-, -, h⟩ | ⟨x, -, -, -, rfl⟩
        · exact ih h
        · exact List.prefix_rfl

theorem prefix_of_mem_gatherAt {fuel : ℕ} {names l : List Text}
    (h : l ∈ gatherAt plan place keep (gather plan place keep fuel) names) : names <+: l := by
  rcases mem_gatherAt.1 h with ⟨-, -, h⟩ | ⟨x, -, -, -, rfl⟩
  · exact prefix_of_mem_gather h
  · exact List.prefix_rfl

/-- What is gathered is in lexicographic order: depth first, the names in a folder in order. -/
theorem gather_pairwise (ht : plan.tree.IsSound) (fuel : ℕ) (names : List Text) :
    (gather plan place keep fuel names).Pairwise (· < ·) := by
  induction fuel generalizing names with
  | zero => exact List.Pairwise.nil
  | succ fuel ih =>
    have hat : ∀ ns, (gatherAt plan place keep (gather plan place keep fuel) ns).Pairwise
        (· < ·) := by
      intro ns
      rw [gatherAt]
      split
      · split_ifs
        · exact List.Pairwise.nil
        · exact ih ns
      · split_ifs
        · exact List.pairwise_singleton _ _
        · exact List.Pairwise.nil
      · exact List.Pairwise.nil
    rw [gather, List.pairwise_append]
    refine ⟨?_, ?_, ?_⟩
    · split_ifs
      · exact List.pairwise_singleton _ _
      · exact List.Pairwise.nil
    · split_ifs
      · exact List.Pairwise.nil
      · rw [List.pairwise_flatMap]
        refine ⟨fun name _ => hat _, (ht.names_pairwise _).imp fun {a b} hab l hl l' hl' => ?_⟩
        exact lt_of_prefix_of_lt hab (prefix_of_mem_gatherAt hl) (prefix_of_mem_gatherAt hl')
    · intro l hl l' hl'
      split_ifs at hl hl'
      · cases hl'
      · obtain rfl := List.mem_singleton.1 hl
        obtain ⟨name, -, hl'⟩ := List.mem_flatMap.1 hl'
        obtain ⟨r, rfl⟩ := prefix_of_mem_gatherAt hl'
        rw [List.append_assoc]
        exact lt_append_cons _ _ _
      · cases hl
      · cases hl

end Order

/-! ## What can be reached -/

/-- Whether a walk comes from the folder `names` to `l`: every folder on the way can be listed,
and none of them is passed over. -/
structure Reaches (plan : Plan) (place : Place) (names l : List Text) : Prop where
  beneath : names <+: l
  listable : ∀ k, names.length ≤ k → k < l.length → place ++ l.take k ∉ plan.tree.unlistable
  unpruned : ∀ k, names.length < k → k ≤ l.length →
    plan.tree.node? (place ++ l.take k) = some .folder → isPruned plan (l.take k) = false

section Reaches

variable {plan : Plan} {place : Place} {keep : List Text → Node → Bool} {names l : List Text}

theorem reaches_self (plan : Plan) (place : Place) (names : List Text) :
    Reaches plan place names names where
  beneath := List.prefix_rfl
  listable k hk hk' := by omega
  unpruned k hk hk' := by omega

/-- A walk comes to something beneath a folder by way of the next name. -/
theorem reaches_iff {name : Text} (h : names ++ [name] <+: l) :
    Reaches plan place names l ↔
      place ++ names ∉ plan.tree.unlistable ∧
        (plan.tree.node? (place ++ (names ++ [name])) = some .folder →
          isPruned plan (names ++ [name]) = false) ∧
        Reaches plan place (names ++ [name]) l := by
  have hlength : names.length + 1 ≤ l.length := by simpa using h.length_le
  have htake : l.take names.length = names := by
    obtain ⟨r, rfl⟩ := h
    simp
  have htake' : l.take (names.length + 1) = names ++ [name] := by
    obtain ⟨r, rfl⟩ := h
    rw [List.take_append_of_le_length (by simp), List.take_of_length_le (by simp)]
  constructor
  · intro hr
    refine ⟨?_, ?_, h, fun k hk => ?_, fun k hk => ?_⟩
    · have hlist := hr.listable names.length le_rfl (by omega)
      rwa [htake] at hlist
    · have hpruned := hr.unpruned (names.length + 1) (by omega) hlength
      rwa [htake'] at hpruned
    · simp only [List.length_append, List.length_singleton] at hk
      exact hr.listable k (by omega)
    · simp only [List.length_append, List.length_singleton] at hk
      exact hr.unpruned k (by omega)
  · rintro ⟨hlist, hpruned, hr⟩
    refine ⟨List.IsPrefix.trans ⟨[name], rfl⟩ h, fun k hk hk' => ?_, fun k hk hk' => ?_⟩
    · rcases Nat.eq_or_lt_of_le hk with rfl | hlt
      · rwa [htake]
      · exact hr.listable k (by simpa using hlt) hk'
    · rcases Nat.eq_or_lt_of_le (Nat.succ_le_of_lt hk) with rfl | hlt
      · rwa [Nat.succ_eq_add_one, htake']
      · exact hr.unpruned k (by simpa using hlt) hk'

/-- What is gathered is what the walk comes to and wants to keep, if the fuel lasts. -/
theorem mem_gather (ht : plan.tree.IsSound) {fuel : ℕ}
    (hfolder : plan.tree.node? (place ++ names) = some .folder)
    (hfuel : plan.tree.folders.length < fuel + names.length) :
    l ∈ gather plan place keep fuel names ↔
      Reaches plan place names l ∧ ∃ x, plan.tree.node? (place ++ l) = some x ∧ keep l x = true := by
  induction fuel generalizing names l with
  | zero =>
    have hdepth := ht.length_lt_folders hfolder
    omega
  | succ fuel ih =>
    have ih' {name : Text} {l : List Text}
        (h : plan.tree.node? (place ++ (names ++ [name])) = some .folder) :=
      ih h (l := l) (by simp only [List.length_append, List.length_singleton]; omega)
    rw [gather, List.mem_append]
    constructor
    · rintro (h | h)
      · split_ifs at h with hkeep
        · obtain rfl := List.mem_singleton.1 h
          exact ⟨reaches_self .., _, hfolder, hkeep⟩
        · cases h
      · split_ifs at h with hlist
        · cases h
        · obtain ⟨name, -, h⟩ := List.mem_flatMap.1 h
          have hprefix := prefix_of_mem_gatherAt h
          rw [reaches_iff hprefix]
          rcases mem_gatherAt.1 h with ⟨hnode, hpruned, h⟩ | ⟨x, hx, hne, hkeep, rfl⟩
          · obtain ⟨hr, hx⟩ := (ih' hnode).1 h
            exact ⟨⟨hlist, fun _ => hpruned, hr⟩, hx⟩
          · refine ⟨⟨hlist, fun hnode => ?_, reaches_self ..⟩, x, hx, hkeep⟩
            rw [hx] at hnode
            exact absurd (Option.some.inj hnode) hne
    · rintro ⟨hr, x, hx, hkeep⟩
      obtain ⟨r, rfl⟩ := hr.beneath
      rcases r with _ | ⟨name, r⟩
      · rw [List.append_nil] at hx hkeep ⊢
        rw [hfolder] at hx
        cases hx
        exact .inl (by simp [hkeep])
      · right
        have hsplit : names ++ name :: r = names ++ [name] ++ r := by simp
        rw [hsplit] at hr hx hkeep ⊢
        obtain ⟨hlist, hpruned, hr⟩ := (reaches_iff ⟨r, rfl⟩).1 hr
        rw [← List.append_assoc] at hx
        rw [if_neg hlist, List.mem_flatMap]
        rcases eq_or_ne r [] with rfl | hne
        · rw [List.append_nil] at hx hr hkeep ⊢
          refine ⟨name, mem_names.2 ⟨x, by rwa [List.append_assoc]⟩, mem_gatherAt.2 ?_⟩
          by_cases hnode : x = .folder
          · subst hnode
            exact .inl ⟨hx, hpruned hx, (ih' hx).2 ⟨hr, _, hx, hkeep⟩⟩
          · exact .inr ⟨x, hx, hnode, hkeep, rfl⟩
        · have hnode := ht.folder_of_append hx hne
          refine ⟨name, mem_names.2 ⟨_, by rwa [List.append_assoc]⟩, mem_gatherAt.2 (.inl ?_)⟩
          exact ⟨hnode, hpruned hnode, (ih' hnode).2 ⟨hr, x, by rwa [List.append_assoc] at hx, hkeep⟩⟩

end Reaches

/-! ## The roots -/

section Roots

variable {tree : FileTree} {here : Place} {included excluded : List Text}

/-- Whether the files and diagnostics of a root are those that are gathered beneath it. -/
def Gathers (tree : FileTree) (here : Place) (included excluded : List Text) (written : Text)
    (part : List SourceFile × List Diagnostic) : Prop :=
  ∃ place pruned, tree.reach here (Path.ofText written).text = .ok (place, .folder) ∧
    Glob.subtrees excluded = .ok pruned ∧
    let plan := planOf tree here included excluded pruned written
    part.1 = (gather plan place (keepSelected plan) (tree.folders.length + 1) []).map
        (fileAt plan) ∧
      part.2 = (gather plan place (keepBarred plan place) (tree.folders.length + 1) []).map barredAt

variable (ht : tree.IsSound) (hlinks : tree.IsLinkFree)

include ht hlinks

theorem root_gathers {written : Text} {s s' : State}
    (h : root tree here included excluded written s = .ok s') :
    ∃ part, Gathers tree here included excluded written part ∧
      s'.files = s.files ++ part.1 ∧ s'.diagnostics = s.diagnostics ++ part.2 := by
  obtain ⟨place, pruned, hreach, hpruned, hfolder⟩ := exists_of_root_eq_ok h
  obtain ⟨hroute, hplace⟩ := hlinks.place_of_reach (Path.isNormal_ofText written) hreach
  rw [← List.append_nil place] at hplace hfolder
  have hadds := @folder_adds (planOf tree here included excluded pruned written) place ht hlinks
    hroute.symm _ _ _ _ hplace (by simp) hfolder
  obtain ⟨visited, -, rfl⟩ := hadds
  exact ⟨(_, _), ⟨place, pruned, hreach, hpruned, rfl, rfl⟩, rfl, rfl⟩

/-- A walk of all roots finds what is gathered beneath each of them. -/
theorem roots_gather {roots : List Text} {found : List SourceFile} {met : List Diagnostic}
    (h : Walk.roots tree here roots included excluded = .ok (found, met)) :
    ∃ parts, List.Forall₂ (Gathers tree here included excluded) roots parts ∧
      found = parts.flatMap Prod.fst ∧ met = parts.flatMap Prod.snd := by
  have hfold : ∀ s s' : State,
      roots.foldlM (fun s r => root tree here included excluded r s) s = .ok s' →
      ∃ parts, List.Forall₂ (Gathers tree here included excluded) roots parts ∧
        s'.files = s.files ++ parts.flatMap Prod.fst ∧
        s'.diagnostics = s.diagnostics ++ parts.flatMap Prod.snd := by
    clear h
    induction roots with
    | nil =>
      rintro s _ ⟨⟩
      exact ⟨[], .nil, by simp, by simp⟩
    | cons r rs ih =>
      intro s s' h
      rw [List.foldlM_cons] at h
      obtain ⟨s₁, hs₁, hs₂⟩ := bind_eq_ok.1 h
      obtain ⟨part, hpart, hfiles₁, hmet₁⟩ := root_gathers ht hlinks hs₁
      obtain ⟨parts, hparts, hfiles₂, hmet₂⟩ := ih s₁ s' hs₂
      exact ⟨part :: parts, .cons hpart hparts, by simp [hfiles₂, hfiles₁], by simp [hmet₂, hmet₁]⟩
  rw [Walk.roots] at h
  obtain ⟨s, hs, hfound⟩ := bind_eq_ok.1 h
  cases hfound
  obtain ⟨parts, hparts, hfiles, hmet⟩ := hfold _ _ hs
  exact ⟨parts, hparts, by simpa using hfiles, by simpa using hmet⟩

end Roots

end InsecureLinks.Walk
