import Mathlib
import InsecureLinks.Proofs.Glob.Pieces
import InsecureLinks.Proofs.Scan.Gather

/-!
# The files of a walk

In a tree without links the walk of a root finds the files that the patterns select, and no pattern
of a whole folder changes that (`mem_selected_iff`): a folder is passed over only where every file in
it is excluded anyway.  What is passed over does show in the diagnostics, which are about the
folders that the walk comes to and cannot list (`mem_barred_iff`).  `roots_eq_parts` puts the roots
together.
-/

namespace InsecureLinks

namespace Glob

/-- Whether some pattern excludes all that is in a folder. -/
def PassesOver (excluded : List Text) (path : Text) : Prop :=
  ∃ p ∈ excluded, ∃ q, subtreePattern? p = some q ∧ MatchesPattern q path

/-- No pattern of a whole folder has a blank before its end, which would be taken for a part of
the name. -/
def NoBlankBeforeEnd (excluded : List Text) : Prop :=
  ∀ p ∈ excluded, ∀ u c, Text.replaceChar '\\' '/' p.strip = u ++ c :: "/**".toList →
    Text.isBlank c = false

/-- What is in a folder that is passed over is excluded. -/
theorem exists_matches_of_passesOver {excluded : List Text} {d x : Text}
    (hexcluded : ∀ p ∈ excluded, ∃ ts, parse p = .ok ts) (hblank : NoBlankBeforeEnd excluded)
    (hd : '\n' ∉ d) (hx : '\n' ∉ x) (h : PassesOver excluded d) :
    ∃ p ∈ excluded, MatchesPattern p (d ++ '/' :: x) := by
  obtain ⟨p, hp, q, hq, us, hus, hmatch⟩ := h
  obtain ⟨ts, hts⟩ := hexcluded p hp
  refine ⟨p, hp, ts, hts, matches_of_subtreePattern hts hq hus (fun c hc => ?_) hmatch hd hx⟩
  obtain ⟨hend, -⟩ := subtreePattern?_eq_some.1 hq
  obtain ⟨u, rfl⟩ := List.getLast?_eq_some_iff.1 hc
  refine hblank p hp u c ?_
  rw [hend, List.append_assoc]
  rfl

end Glob

namespace Walk

open FileTree

/-- Whether names lead from the root at `place` to a file that is scanned: every folder on the way
can be listed, and the patterns select the file. -/
structure IsSelected (tree : FileTree) (place : Place) (included excluded l : List Text) : Prop where
  file : ∃ content, tree.node? (place ++ l) = some (.file content)
  listable : ∀ k < l.length, place ++ l.take k ∉ tree.unlistable
  selects : Glob.Selects included excluded (relative l)

/-- Whether names lead from the root at `place` to a folder that cannot be listed, by way of
folders that can be listed and are not passed over. -/
structure IsBarred (tree : FileTree) (place : Place) (excluded l : List Text) : Prop where
  folder : tree.node? (place ++ l) = some .folder
  unlistable : place ++ l ∈ tree.unlistable
  listable : ∀ k < l.length, place ++ l.take k ∉ tree.unlistable
  reached : ∀ k, 0 < k → k ≤ l.length → ¬Glob.PassesOver excluded (relative (l.take k))

theorem relative_take_drop {l : List Text} {k : ℕ} (hpos : 0 < k) (hlt : k < l.length) :
    relative l = relative (l.take k) ++ '/' :: relative (l.drop k) := by
  have htake : l.take k ≠ [] := by
    rw [Ne, List.take_eq_nil_iff]
    rintro (h | rfl)
    · omega
    · simp at hlt
  have hdrop : l.drop k ≠ [] := by simpa using hlt
  conv_lhs => rw [← List.take_append_drop k l]
  exact Text.join_append htake hdrop ['/']

section Walk

variable {tree : FileTree} {here place : Place} {included excluded : List Text}
  {pruned : List (List Glob.Token)} {written : Text}

theorem isPruned_iff
    (hpruned : ∀ ts, ts ∈ pruned ↔
      ∃ p ∈ excluded, ∃ q, Glob.subtreePattern? p = some q ∧ Glob.parse q = .ok ts)
    (names : List Text) :
    isPruned (planOf tree here included excluded pruned written) names = true ↔
      Glob.PassesOver excluded (relative names) := by
  rw [isPruned, List.any_eq_true]
  constructor
  · rintro ⟨ts, hts, haccepts⟩
    obtain ⟨p, hp, q, hq, hparse⟩ := (hpruned ts).1 hts
    exact ⟨p, hp, q, hq, ts, hparse, (Glob.accepts_iff ts _).1 haccepts⟩
  · rintro ⟨p, hp, q, hq, ts, hparse, hmatches⟩
    exact ⟨ts, (hpruned ts).2 ⟨p, hp, q, hq, hparse⟩, (Glob.accepts_iff ts _).2 hmatches⟩

variable (ht : tree.IsSound)
  (hincluded : ∀ p ∈ included, ∃ ts, Glob.parse p = .ok ts)
  (hexcluded : ∀ p ∈ excluded, ∃ ts, Glob.parse p = .ok ts)
  (hpruned : ∀ ts, ts ∈ pruned ↔
    ∃ p ∈ excluded, ∃ q, Glob.subtreePattern? p = some q ∧ Glob.parse q = .ok ts)
  (hplace : tree.node? place = some .folder)

include ht hpruned hplace

theorem mem_barred_iff {l : List Text} :
    l ∈ gather (planOf tree here included excluded pruned written) place
        (keepBarred (planOf tree here included excluded pruned written) place)
        (tree.folders.length + 1) [] ↔ IsBarred tree place excluded l := by
  rw [mem_gather ht (by simpa using hplace) (by simp), planOf_tree]
  constructor
  · rintro ⟨hr, x, hx, hkeep⟩
    rw [keepBarred, Bool.and_eq_true, decide_eq_true_iff] at hkeep
    obtain ⟨hfolder, hlist⟩ := hkeep
    obtain rfl : x = .folder := by
      cases x with
      | folder => rfl
      | file | link | pipe => cases hfolder
    refine ⟨hx, hlist, fun k hk => hr.listable k (Nat.zero_le k) hk, fun k hpos hk hover => ?_⟩
    have hnode : tree.node? (place ++ l.take k) = some .folder := by
      rcases Nat.eq_or_lt_of_le hk with rfl | hlt
      · rwa [List.take_length]
      · refine ht.folder_of_append (q := l.drop k) (x := .folder) ?_ (by simpa using hlt)
        rwa [List.append_assoc, List.take_append_drop]
    have hno := hr.unpruned k hpos hk hnode
    rw [(isPruned_iff hpruned _).2 hover] at hno
    cases hno
  · intro h
    refine ⟨⟨List.nil_prefix, fun k _ hk => h.listable k hk, fun k hpos hk _ => ?_⟩, _, h.folder, ?_⟩
    · rw [Bool.eq_false_iff, Ne, isPruned_iff hpruned]
      exact h.reached k hpos hk
    · rw [keepBarred, Bool.and_eq_true, decide_eq_true_iff]
      exact ⟨rfl, h.unlistable⟩

include hincluded hexcluded in
/-- Passing over folders does not change which files are found. -/
theorem mem_selected_iff (hnewline : ∀ p x, tree.node? p = some x → ∀ n ∈ p, '\n' ∉ n)
    (hblank : Glob.NoBlankBeforeEnd excluded) {l : List Text} :
    l ∈ gather (planOf tree here included excluded pruned written) place
        (keepSelected (planOf tree here included excluded pruned written))
        (tree.folders.length + 1) [] ↔ IsSelected tree place included excluded l := by
  have hplan : (planOf tree here included excluded pruned written).IsReadable :=
    ⟨hincluded, hexcluded⟩
  obtain ⟨b, hb, hselects⟩ := selects_eq_ok hplan (relative l)
  rw [mem_gather ht (by simpa using hplace) (by simp), planOf_tree]
  constructor
  · rintro ⟨hr, x, hx, hkeep⟩
    rw [keepSelected, hb, Bool.and_eq_true] at hkeep
    obtain ⟨hfile, hkeep⟩ := hkeep
    refine ⟨?_, fun k hk => hr.listable k (Nat.zero_le k) hk, hselects.1 hkeep⟩
    cases x with
    | file content => exact ⟨content, hx⟩
    | folder | link | pipe => cases hfile
  · intro h
    obtain ⟨content, hx⟩ := h.file
    refine ⟨⟨List.nil_prefix, fun k _ hk => h.listable k hk, fun k hpos hk hnode => ?_⟩, _, hx, ?_⟩
    · rw [Bool.eq_false_iff, Ne, isPruned_iff hpruned]
      intro hover
      have hlt : k < l.length := by
        refine lt_of_le_of_ne hk ?_
        rintro rfl
        rw [planOf_tree, List.take_length, hx] at hnode
        cases hnode
      have hnames : ∀ n ∈ l, '\n' ∉ n := fun n hn => hnewline _ _ hx n (List.mem_append_right _ hn)
      obtain ⟨p, hp, hmatch⟩ := Glob.exists_matches_of_passesOver hexcluded hblank
        (not_mem_relative (by decide) fun n hn => hnames n (List.mem_of_mem_take hn))
        (not_mem_relative (by decide) fun n hn => hnames n (List.mem_of_mem_drop hn))
        hover
      rw [← relative_take_drop hpos hlt] at hmatch
      exact h.selects.2 p hp hmatch
    · rw [keepSelected, hb, Bool.and_eq_true]
      exact ⟨rfl, hselects.2 h.selects⟩

end Walk

/-! ## The roots -/

/-- Whether `files` and `met` are what a walk of the root at `place` has to find: the files that are
selected and a diagnostic for each folder that cannot be listed, both depth first with the names in
a folder in order. -/
def IsWalkOf (tree : FileTree) (place : Place) (written : Text) (included excluded : List Text)
    (files : List SourceFile) (met : List Diagnostic) : Prop :=
  ∃ ls ms : List (List Text),
    files = ls.map (fun l => ⟨(Path.ofText written).text, relative l⟩) ∧
      ls.Pairwise (· < ·) ∧ (∀ l, l ∈ ls ↔ IsSelected tree place included excluded l) ∧
    met = ms.map barredAt ∧
      ms.Pairwise (· < ·) ∧ ∀ l, l ∈ ms ↔ IsBarred tree place excluded l

section Roots

variable {tree : FileTree} {here : Place} {included excluded : List Text} (ht : tree.IsSound)
  (hlinks : tree.IsLinkFree)
  (hnewline : ∀ p x, tree.node? p = some x → ∀ n ∈ p, '\n' ∉ n)
  (hincluded : ∀ p ∈ included, ∃ ts, Glob.parse p = .ok ts)
  (hexcluded : ∀ p ∈ excluded, ∃ ts, Glob.parse p = .ok ts)
  (hblank : Glob.NoBlankBeforeEnd excluded)

include ht hlinks hnewline hincluded hexcluded hblank

/-- What is gathered beneath a root is what has to be found there. -/
theorem isWalkOf_of_gathers {written : Text} {part : List SourceFile × List Diagnostic}
    (h : Gathers tree here included excluded written part) :
    ∃ place, tree.reach here (Path.ofText written).text = .ok (place, .folder) ∧
      IsWalkOf tree place written included excluded part.1 part.2 := by
  obtain ⟨place, pruned, hreach, hsubtrees, hfiles, hmet⟩ := h
  obtain ⟨us, hus, hpruned⟩ := Glob.subtrees_eq_ok hexcluded
  obtain rfl : us = pruned := by
    rw [hsubtrees] at hus
    exact (Except.ok.inj hus).symm
  obtain ⟨-, hplace⟩ := hlinks.place_of_reach (Path.isNormal_ofText written) hreach
  refine ⟨place, hreach, _, _, hfiles, ?_, ?_, hmet, ?_, ?_⟩
  · exact gather_pairwise ht _ _
  · exact fun l => mem_selected_iff ht hincluded hexcluded hpruned hplace hnewline hblank
  · exact gather_pairwise ht _ _
  · exact fun l => mem_barred_iff ht hpruned hplace

/-- In a tree without links every root gives the files that are selected beneath it, whatever is
passed over, and a diagnostic for each folder that the walk comes to and cannot list. -/
theorem roots_eq_parts {roots : List Text}
    (hroots : ∀ r ∈ roots, ∃ place, tree.reach here (Path.ofText r).text = .ok (place, .folder)) :
    ∃ parts : List (List SourceFile × List Diagnostic),
      List.Forall₂ (fun r part => ∃ place,
        tree.reach here (Path.ofText r).text = .ok (place, .folder) ∧
          IsWalkOf tree place r included excluded part.1 part.2) roots parts ∧
      Walk.roots tree here roots included excluded =
        .ok (parts.flatMap Prod.fst, parts.flatMap Prod.snd) := by
  obtain ⟨⟨found, met⟩, hwalk⟩ := roots_eq_ok hroots hincluded hexcluded
  obtain ⟨parts, hparts, rfl, rfl⟩ := roots_gather ht hlinks hwalk
  refine ⟨parts, hparts.imp fun r part h => ?_, hwalk⟩
  exact isWalkOf_of_gathers ht hlinks hnewline hincluded hexcluded hblank h

end Roots

/-- A folder `r` with a file `a` and a folder `b` that cannot be listed, not in this order. -/
def halfBarred : FileTree :=
  ⟨[(["r".toList], .folder), (["r".toList, "b".toList], .folder),
    (["r".toList, "a".toList], .file (.bytes []))], [["r".toList, "b".toList]], []⟩

theorem isSound_halfBarred : halfBarred.IsSound where
  nodup := by decide
  parent := by
    intro p hp
    simp only [halfBarred, List.mem_cons, List.not_mem_nil, or_false] at hp
    rcases hp with rfl | rfl | rfl
    · exact ⟨[], _, rfl, isName_singleton (by decide) (by decide), rfl⟩
    · exact ⟨["r".toList], _, rfl, isName_singleton (by decide) (by decide), rfl⟩
    · exact ⟨["r".toList], _, rfl, isName_singleton (by decide) (by decide), rfl⟩

theorem roots_eq_parts_halfBarred :
    ∃ parts : List (List SourceFile × List Diagnostic),
      List.Forall₂ (fun r part => ∃ place,
        halfBarred.reach [] (Path.ofText r).text = .ok (place, .folder) ∧
          IsWalkOf halfBarred place r [] ["c/**".toList] part.1 part.2) ["r".toList] parts ∧
      Walk.roots halfBarred [] ["r".toList] [] ["c/**".toList] =
        .ok (parts.flatMap Prod.fst, parts.flatMap Prod.snd) := by
  have hlinks : halfBarred.IsLinkFree := by
    refine isLinkFree_of_nodes fun p hp target => ?_
    simp only [halfBarred, List.mem_cons, List.not_mem_nil, or_false] at hp
    rcases hp with rfl | rfl | rfl <;> simp
  have hnewline : ∀ p x, halfBarred.node? p = some x → ∀ n ∈ p, '\n' ∉ n := by
    intro p x hx
    rcases eq_or_ne p [] with rfl | hne
    · simp
    · have hmem := mem_of_node? hx hne
      simp only [halfBarred, List.mem_cons, Prod.mk.injEq, List.not_mem_nil, or_false] at hmem
      rcases hmem with ⟨rfl, -⟩ | ⟨rfl, -⟩ | ⟨rfl, -⟩ <;> decide
  have hblank : Glob.NoBlankBeforeEnd ["c/**".toList] := by
    intro p hp u c h
    obtain rfl := List.mem_singleton.1 hp
    have hpattern : Text.replaceChar '\\' '/' (Text.strip "c/**".toList) =
        ['c', '/', '*', '*'] := by decide
    rw [hpattern] at h
    obtain ⟨hnil, -⟩ : [] = u ∧ ['c', '/', '*', '*'] = c :: ['/', '*', '*'] :=
      List.append_inj' h rfl
    subst hnil
    obtain rfl : 'c' = c := by simpa using h
    decide
  have hreach : halfBarred.reach [] (Path.ofText "r".toList).text = .ok (["r".toList], .folder) := by
    have hnormal := Path.isNormal_ofText "r".toList
    rw [reach_eq_ok, lookup_text hnormal, if_neg (by decide)]
    exact hlinks.walk_beneath isSound_halfBarred rfl
  exact roots_eq_parts isSound_halfBarred hlinks hnewline (by simp)
    (fun p hp => List.mem_singleton.1 hp ▸ Glob.exists_parse_of_noClass (by decide)) hblank
    (fun r hr => ⟨_, List.mem_singleton.1 hr ▸ hreach⟩)

end Walk

end InsecureLinks
