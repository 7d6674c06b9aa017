import Mathlib
import InsecureLinks.Proofs.Grouping
import InsecureLinks.Proofs.Replace.Line
import InsecureLinks.Proofs.Scan.Links
import InsecureLinks.Proofs.Text.Utf8

/-!
# Securing a file

What replacing makes of a file's text, given the violations that a scan has found in it
(`inText_violations`).  Scanning and replacing cut the text into lines on their own; that both read
off the same cut is what makes the line numbers of the one right for the other.
-/

namespace InsecureLinks

namespace SourceFile

/-- A line with its terminator and its number, as it should be: every link in it is secure, unless
the whitelist allows them. -/
def rewrittenLine (w : Whitelist) (f : SourceFile) (p : (Text × Text) × ℕ) : Text :=
  if w.Allows (f.linkAt p.1.1 p.2 0) then p.1.1 else secured p.1.1

/-- A file's text as it should be.  No terminator changes. -/
def rewritten (w : Whitelist) (f : SourceFile) (t : Text) : Text :=
  (Text.cutLines t).zipIdx.flatMap fun p => f.rewrittenLine w p ++ p.1.2

/-- The violations in a line with its terminator and its number. -/
def lineViolations (w : Whitelist) (f : SourceFile) (p : (Text × Text) × ℕ) : List Violation :=
  if w.Allows (f.linkAt p.1.1 p.2 0) then [] else f.lineLinks p.1.1 p.2

variable {w : Whitelist} {f : SourceFile} {t : Text} {p : (Text × Text) × ℕ}

/-- An entry that allows one link of a line allows all of them. -/
theorem filter_lineLinks (w : Whitelist) (f : SourceFile) (p : (Text × Text) × ℕ) :
    (f.lineLinks p.1.1 p.2).filter (fun v => ¬w.Allows v) = f.lineViolations w p := by
  have hcolumn : ∀ v ∈ f.lineLinks p.1.1 p.2, w.Allows v ↔ w.Allows (f.linkAt p.1.1 p.2 0) := by
    intro v hv
    obtain ⟨k, -, rfl⟩ := mem_lineLinks.1 hv
    exact Iff.rfl
  rw [lineViolations]
  split_ifs with h
  · rw [List.filter_eq_nil_iff]
    intro v hv
    simp [(hcolumn v hv).2 h]
  · rw [List.filter_eq_self]
    intro v hv
    simp [mt (hcolumn v hv).1 h]

theorem violations_eq (w : Whitelist) (f : SourceFile) (t : Text) :
    f.violations w t = (Text.cutLines t).zipIdx.flatMap (f.lineViolations w) := by
  rw [violations, links, List.filter_flatMap]
  congr 1
  funext p
  exact filter_lineLinks w f p

theorem lineNumber_of_mem_lineViolations {v : Violation} (h : v ∈ f.lineViolations w p) :
    v.lineNumber = ((p.2 + 1 : ℕ) : ℤ) := by
  rw [lineViolations] at h
  split_ifs at h
  · cases h
  · obtain ⟨k, -, rfl⟩ := mem_lineLinks.1 h
    rfl

theorem rewrittenLine_of_no_violations (h : f.lineViolations w p = []) :
    f.rewrittenLine w p = p.1.1 := by
  rw [lineViolations] at h
  rw [rewrittenLine]
  split_ifs at h ⊢
  · rfl
  · exact secured_of_starts_eq_nil (List.map_eq_nil_iff.1 h)

end SourceFile

namespace Replace

/-! ## Columns -/

theorem eraseDups_sublist {α : Type} [DecidableEq α] (xs : List α) : xs.eraseDups.Sublist xs := by
  induction hn : xs.length using Nat.strong_induction_on generalizing xs with
  | _ n ih =>
    subst hn
    rcases xs with _ | ⟨x, xs⟩
    · exact List.Sublist.refl _
    · rw [List.eraseDups_cons]
      have hlength := List.length_filter_le (fun y => !y == x) xs
      exact ((ih _ (Nat.lt_succ_of_le hlength) _ rfl).trans List.filter_sublist).cons_cons x

theorem nodup_eraseDups {α : Type} [DecidableEq α] (xs : List α) : xs.eraseDups.Nodup := by
  induction hn : xs.length using Nat.strong_induction_on generalizing xs with
  | _ n ih =>
    subst hn
    rcases xs with _ | ⟨x, xs⟩
    · exact List.nodup_nil
    · rw [List.eraseDups_cons, List.nodup_cons]
      have hlength := List.length_filter_le (fun y => !y == x) xs
      exact ⟨by simp [List.mem_eraseDups], ih _ (Nat.lt_succ_of_le hlength) _ rfl⟩

theorem ordered_nil : ordered [] = [] := by simp [ordered]

theorem mem_ordered {columns : List ℤ} {k : ℤ} : k ∈ ordered columns ↔ k ∈ columns := by
  rw [ordered, List.mem_eraseDups, List.mem_mergeSort]

theorem ordered_pairwise (columns : List ℤ) : (ordered columns).Pairwise fun a b => b < a := by
  have hsorted := @List.pairwise_mergeSort ℤ (fun a b => decide (b ≤ a))
    (fun a b c hab hbc => by
      rw [decide_eq_true_iff] at hab hbc ⊢
      exact hbc.trans hab)
    (fun a b => by
      rw [Bool.or_eq_true, decide_eq_true_iff, decide_eq_true_iff]
      exact le_total b a)
    columns
  refine ((hsorted.sublist (eraseDups_sublist _)).and (nodup_eraseDups _)).imp fun {a b} h => ?_
  exact lt_of_le_of_ne (of_decide_eq_true h.1) (Ne.symm h.2)

/-- Columns are gone through from the last to the first, in whatever order and however often they
are given. -/
theorem ordered_eq {columns : List ℤ} {ks : List ℕ} (hks : ks.Pairwise (· < ·))
    (h : ∀ k, k ∈ columns ↔ k ∈ ks.map fun (k : ℕ) => (k : ℤ)) :
    ordered columns = ks.reverse.map fun (k : ℕ) => (k : ℤ) := by
  have hreverse : (ks.reverse.map fun (k : ℕ) => (k : ℤ)).Pairwise fun a b => b < a := by
    rw [List.pairwise_map, List.pairwise_reverse]
    exact hks.imp fun hab => Nat.cast_lt.2 hab
  have hordered := ordered_pairwise columns
  refine List.Perm.eq_of_pairwise (fun a b _ _ hba hab => absurd hab (lt_asymm hba)) hordered
    hreverse ?_
  refine (List.perm_ext_iff_of_nodup (hordered.imp fun hab => (ne_of_lt hab).symm)
    (hreverse.imp fun hab => (ne_of_lt hab).symm)).2 fun k => ?_
  rw [mem_ordered, h, List.map_reverse, List.mem_reverse]

/-- The columns of violations under their lines are the groups of the violations. -/
theorem columnsByLine_eq (vs : List Violation) :
    columnsByLine vs =
      (Groups.of Violation.lineNumber vs).map fun g => (g.1, g.2.map Violation.columnOffset) := by
  have hadd : ∀ (groups : Groups Int Violation) (v : Violation),
      Groups.add v.lineNumber v.columnOffset
          (groups.map fun g => (g.1, g.2.map Violation.columnOffset)) =
        (Groups.add v.lineNumber v groups).map fun g => (g.1, g.2.map Violation.columnOffset) := by
    intro groups v
    induction groups with
    | nil => rfl
    | cons g groups ih =>
      rw [List.map_cons, Groups.add, Groups.add]
      split_ifs
      · simp
      · rw [ih, List.map_cons]
  induction vs using List.reverseRecOn with
  | nil => rfl
  | append_singleton vs v ih =>
    rw [columnsByLine, List.foldl_append, ← columnsByLine, ih, Groups.of_concat]
    exact hadd _ v

/-! ## Lines -/

theorem lineIndex_succ (count k : ℕ) :
    lineIndex count ((k + 1 : ℕ) : ℤ) = .ok (if k < count then some k else none) := by
  rw [lineIndex]
  split_ifs
  all_goals first | omega | simp

/-- Securing columns of different lines secures each line by itself. -/
theorem secureLines_eq {gs : List (ℕ × List ℤ)} {pieces : List Text}
    (hnodup : (gs.map Prod.fst).Nodup) (hlt : ∀ g ∈ gs, g.1 < pieces.length) :
    ∃ pieces', secureLines pieces (gs.map fun g => (((g.1 + 1 : ℕ) : ℤ), g.2)) =
        .ok (pieces', (gs.map fun g => (secureColumns (pieces.getD g.1 []) (ordered g.2)).2).sum) ∧
      (∀ g ∈ gs, pieces'[g.1]? =
        pieces[g.1]?.map fun piece => (secureColumns piece (ordered g.2)).1) ∧
      ∀ k, k ∉ gs.map Prod.fst → pieces'[k]? = pieces[k]? := by
  induction gs generalizing pieces with
  | nil => exact ⟨pieces, rfl, by simp, by simp⟩
  | cons g gs ih =>
    obtain ⟨hnew, hnodup⟩ := List.nodup_cons.1 hnodup
    have hg := hlt g (by simp)
    have hindex : lineIndex pieces.length ((g.1 + 1 : ℕ) : ℤ) = .ok (some g.1) := by
      rw [lineIndex_succ, if_pos hg]
    let piece := (secureColumns (pieces.getD g.1 []) (ordered g.2)).1
    obtain ⟨pieces', hok, hmem, hother⟩ := @ih (pieces.set g.1 piece) hnodup
      (by simpa using fun g' hg' => hlt g' (by simp [hg']))
    have hne : ∀ g' ∈ gs, g.1 ≠ g'.1 := by
      intro g' hg' h
      exact hnew (h ▸ List.mem_map_of_mem hg')
    refine ⟨pieces', ?_, ?_, ?_⟩
    · have hsum : (gs.map fun g' =>
            (secureColumns ((pieces.set g.1 piece).getD g'.1 []) (ordered g'.2)).2) =
          gs.map fun g' => (secureColumns (pieces.getD g'.1 []) (ordered g'.2)).2 := by
        refine List.map_congr_left fun g' hg' => ?_
        rw [List.getD_eq_getElem?_getD, List.getD_eq_getElem?_getD,
          List.getElem?_set_ne (hne g' hg')]
      rw [hsum] at hok
      rw [List.map_cons, secureLines, hindex]
      simp only [bind, Except.bind]
      rw [hok]
      rfl
    · intro g' hg'
      rcases List.mem_cons.1 hg' with rfl | hg'
      · rw [hother _ hnew, List.getElem?_set_self hg, List.getElem?_eq_getElem hg, Option.map_some]
        simp only [piece]
        rw [List.getD_eq_getElem _ _ hg]
      · rw [hmem g' hg', List.getElem?_set_ne (hne g' hg')]
    · intro k hk
      simp only [List.map_cons, List.mem_cons, not_or] at hk
      rw [hother k hk.2, List.getElem?_set_ne (Ne.symm hk.1)]

/-- Securing columns of lines secures each line at the columns that are given for it, and passes
over lines that are not there. -/
theorem secureLines_get {groups : Groups ℤ ℤ} (hnodup : (groups.map Prod.fst).Nodup)
    (hfirst : ∀ g ∈ groups, 1 ≤ g.1) (pieces : List Text) :
    ∃ n, secureLines pieces groups = .ok (pieces.zipIdx.map fun p =>
      (secureColumns p.1 (ordered (Groups.get ((p.2 + 1 : ℕ) : ℤ) groups))).1, n) := by
  induction groups generalizing pieces with
  | nil =>
    refine ⟨0, congrArg (fun ps => Except.ok (ps, 0)) ?_⟩
    simp only [Groups.get, ordered_nil, secureColumns, List.zipIdx_map_fst]
  | cons g groups ih =>
    obtain ⟨lineNumber, columns⟩ := g
    obtain ⟨hnew, hkeys⟩ := List.nodup_cons.1 hnodup
    obtain ⟨hline, hlines⟩ := List.forall_mem_cons.1 hfirst
    have hother : ∀ i : ℕ, lineNumber ≠ ((i + 1 : ℕ) : ℤ) →
        Groups.get ((i + 1 : ℕ) : ℤ) ((lineNumber, columns) :: groups) =
          Groups.get ((i + 1 : ℕ) : ℤ) groups := fun i hi => if_neg hi
    obtain ⟨k, rfl⟩ : ∃ k : ℕ, lineNumber = ((k + 1 : ℕ) : ℤ) :=
      ⟨(lineNumber - 1).toNat, by have : 1 ≤ lineNumber := hline; omega⟩
    rw [secureLines, lineIndex_succ]
    rcases le_or_gt pieces.length k with hafter | hk
    · obtain ⟨n, hok⟩ := ih hkeys hlines pieces
      refine ⟨n, ?_⟩
      rw [if_neg (not_lt.2 hafter)]
      refine hok.trans (congrArg (fun ps => Except.ok (ps, n)) (List.map_congr_left fun p hp => ?_))
      have hlt := (List.getElem?_eq_some_iff.1 (List.mem_zipIdx_iff_getElem?.1 hp)).1
      rw [hother p.2 (by omega)]
    · obtain ⟨n, hok⟩ := ih hkeys hlines
        (pieces.set k (secureColumns (pieces.getD k []) (ordered columns)).1)
      refine ⟨(secureColumns (pieces.getD k []) (ordered columns)).2 + n, ?_⟩
      rw [if_pos hk]
      simp only [bind, Except.bind, pure, Except.pure, hok]
      refine congrArg (fun ps => Except.ok (ps, _)) (List.ext_getElem? fun i => ?_)
      rw [List.getElem?_map, List.getElem?_map, List.getElem?_zipIdx, List.getElem?_zipIdx]
      rcases eq_or_ne k i with rfl | hne
      · -- No later group is for the same line.
        have hlater : Groups.get ((k + 1 : ℕ) : ℤ) groups = [] := Groups.get_of_not_mem hnew
        have hget : Groups.get ((k + 1 : ℕ) : ℤ) ((((k + 1 : ℕ) : ℤ), columns) :: groups) =
            columns := if_pos rfl
        rw [List.getElem?_set_self hk, List.getElem?_eq_getElem hk, List.getD_eq_getElem _ _ hk]
        simp only [Option.map_some, Nat.zero_add, hlater, hget, ordered_nil, secureColumns]
      · rw [List.getElem?_set_ne hne]
        rcases pieces[i]? with _ | piece
        · rfl
        · simp only [Option.map_some, Nat.zero_add, hother i (by omega)]

/-- The columns that violations name in a line. -/
theorem mem_get_columnsByLine {vs : List Violation} {lineNumber column : ℤ} :
    column ∈ Groups.get lineNumber (columnsByLine vs) ↔
      ∃ v ∈ vs, v.lineNumber = lineNumber ∧ v.columnOffset = column := by
  rw [columnsByLine_eq, Groups.get_map, Groups.get_of]
  simp [and_assoc]

/-- A line with its terminator and its number, secured at the columns that violations name in it. -/
def reportedLine (vs : List Violation) (p : (Text × Text) × ℕ) : Text :=
  (secureColumns (p.1.1 ++ p.1.2)
    (ordered (Groups.get ((p.2 + 1 : ℕ) : ℤ) (columnsByLine vs)))).1

/-- Each line of a text is secured at the columns that violations name in it, whatever violations
they are. -/
theorem secureLines_reported {vs : List Violation} (hline : ∀ v ∈ vs, 1 ≤ v.lineNumber)
    (t : Text) :
    ∃ n, secureLines (Text.pieces t) (columnsByLine vs) =
      .ok ((Text.cutLines t).zipIdx.map (reportedLine vs), n) := by
  have hkeys : ((columnsByLine vs).map Prod.fst).Nodup := by
    rw [columnsByLine_eq, List.map_map]
    exact Groups.nodup_keys_of Violation.lineNumber vs
  have hfirst : ∀ g ∈ columnsByLine vs, 1 ≤ g.1 := by
    intro g hg
    rw [columnsByLine_eq] at hg
    obtain ⟨group, hgroup, rfl⟩ := List.mem_map.1 hg
    obtain ⟨v, hv, hkey⟩ := Groups.mem_keys_of.1 (List.mem_map_of_mem (f := Prod.fst) hgroup)
    exact hkey ▸ hline v hv
  obtain ⟨n, hlines⟩ := secureLines_get hkeys hfirst (Text.pieces t)
  refine ⟨n, hlines.trans ?_⟩
  rw [Text.pieces_eq_map, List.zipIdx_map, List.map_map]
  rfl

/-! ## Files -/

section File

variable (w : Whitelist) (f : SourceFile)

/-- Securing a line with violations at their columns makes it what it should be. -/
theorem secureColumns_violations {p : (Text × Text) × ℕ} (h : f.lineViolations w p ≠ []) :
    secureColumns (p.1.1 ++ p.1.2)
        (ordered ((f.lineViolations w p).map Violation.columnOffset)) =
      (f.rewrittenLine w p ++ p.1.2, (f.lineViolations w p).length) := by
  rw [SourceFile.lineViolations] at h ⊢
  rw [SourceFile.rewrittenLine]
  split_ifs at h ⊢
  · exact absurd rfl h
  · rw [SourceFile.lineLinks, List.map_map, List.length_map]
    have hcolumns := ordered_eq (Text.starts_sorted insecure p.1.1) fun _ => Iff.rfl
    have hmap : Violation.columnOffset ∘ f.linkAt p.1.1 p.2 = fun (k : ℕ) => (k : ℤ) := rfl
    rw [hmap, hcolumns, secureColumns_starts]

/-- The lines of a file that have violations, each with the columns. -/
def groupsOf (ps : List ((Text × Text) × ℕ)) : List (ℕ × List ℤ) :=
  (ps.filter fun p => !(f.lineViolations w p).isEmpty).map fun p =>
    (p.2, (f.lineViolations w p).map Violation.columnOffset)

variable (t : Text)

theorem columnsByLine_violations :
    columnsByLine (f.violations w t) =
      (groupsOf w f (Text.cutLines t).zipIdx).map fun g => (((g.1 + 1 : ℕ) : ℤ), g.2) := by
  have hnames : ((Text.cutLines t).zipIdx.map fun p => ((p.2 + 1 : ℕ) : ℤ)).Nodup := by
    have hmap : (Text.cutLines t).zipIdx.map (fun p => ((p.2 + 1 : ℕ) : ℤ)) =
        ((Text.cutLines t).zipIdx.map Prod.snd).map fun n => ((n + 1 : ℕ) : ℤ) := by
      rw [List.map_map]
      rfl
    rw [hmap, List.zipIdx_map_snd]
    exact List.Nodup.map (fun a b hab => by simpa using hab) List.nodup_range'
  rw [columnsByLine_eq, SourceFile.violations_eq, Groups.of_flatMap
    (fun p _ v hv => SourceFile.lineNumber_of_mem_lineViolations hv) hnames, groupsOf,
    List.map_map, List.map_map]
  rfl

theorem length_flatMap_filter {α β : Type} (block : α → List β) (xs : List α) :
    ((xs.filter fun x => !(block x).isEmpty).map fun x => (block x).length).sum =
      (xs.flatMap block).length := by
  induction xs with
  | nil => rfl
  | cons x xs ih =>
    rw [List.flatMap_cons, List.length_append, ← ih]
    rcases hx : block x with _ | ⟨y, ys⟩
    · simp [hx]
    · simp [hx]

section Lines

variable {t}

theorem getElem?_pieces {p : (Text × Text) × ℕ} (h : p ∈ (Text.cutLines t).zipIdx) :
    (Text.pieces t)[p.2]? = some (p.1.1 ++ p.1.2) := by
  rw [Text.pieces_eq_map, List.getElem?_map, List.mem_zipIdx_iff_getElem?.1 h]
  rfl

/-- A line is among the groups exactly if it has violations. -/
theorem mem_groupsOf {p : (Text × Text) × ℕ} (h : p ∈ (Text.cutLines t).zipIdx) :
    p.2 ∈ (groupsOf w f (Text.cutLines t).zipIdx).map Prod.fst ↔ f.lineViolations w p ≠ [] := by
  rw [groupsOf, List.map_map, List.mem_map]
  constructor
  · rintro ⟨q, hq, hqp⟩
    obtain ⟨hq, hne⟩ := List.mem_filter.1 hq
    -- Lines with the same number are the same.
    have hsame := List.mem_zipIdx_iff_getElem?.1 hq
    rw [show q.2 = p.2 from hqp, List.mem_zipIdx_iff_getElem?.1 h] at hsame
    obtain rfl : q = p := Prod.ext (Option.some.inj hsame).symm hqp
    simpa using hne
  · intro hne
    exact ⟨p, List.mem_filter.2 ⟨h, by simpa using hne⟩, rfl⟩

theorem nodup_groupsOf :
    ((groupsOf w f (Text.cutLines t).zipIdx).map Prod.fst).Nodup := by
  have hmap : (groupsOf w f (Text.cutLines t).zipIdx).map Prod.fst =
      ((Text.cutLines t).zipIdx.filter fun p => !(f.lineViolations w p).isEmpty).map Prod.snd := by
    rw [groupsOf, List.map_map]
    rfl
  rw [hmap]
  refine List.Nodup.sublist (List.filter_sublist.map _) ?_
  rw [List.zipIdx_map_snd]
  exact List.nodup_range'

theorem lt_of_mem_groupsOf {g : ℕ × List ℤ} (h : g ∈ groupsOf w f (Text.cutLines t).zipIdx) :
    g.1 < (Text.pieces t).length := by
  obtain ⟨p, hp, rfl⟩ := List.mem_map.1 h
  exact (List.getElem?_eq_some_iff.1 (getElem?_pieces (List.mem_filter.1 hp).1)).1

end Lines

/-- Securing the lines that have violations makes every line what it should be. -/
theorem secureLines_violations :
    secureLines (Text.pieces t) (columnsByLine (f.violations w t)) =
      .ok ((Text.cutLines t).zipIdx.map (fun p => f.rewrittenLine w p ++ p.1.2),
        (f.violations w t).length) := by
  obtain ⟨pieces, hok, hsecured, hother⟩ :=
    secureLines_eq (nodup_groupsOf w f) fun g hg => lt_of_mem_groupsOf w f hg
  have hpieces :
      pieces = (Text.cutLines t).zipIdx.map fun p => f.rewrittenLine w p ++ p.1.2 := by
    refine List.ext_getElem? fun k => ?_
    rw [List.getElem?_map]
    rcases hline : (Text.cutLines t).zipIdx[k]? with _ | p
    · -- There is no such line.
      rw [List.getElem?_zipIdx, Option.map_eq_none_iff] at hline
      have hnone : (Text.pieces t)[k]? = none := by
        rw [Text.pieces_eq_map, List.getElem?_map, hline]
        rfl
      have hnot : k ∉ (groupsOf w f (Text.cutLines t).zipIdx).map Prod.fst := by
        intro hk
        obtain ⟨g, hg, rfl⟩ := List.mem_map.1 hk
        exact absurd (lt_of_mem_groupsOf w f hg) (not_lt.2 (List.getElem?_eq_none_iff.1 hnone))
      rw [hother k hnot, hnone]
      rfl
    · have hp : p ∈ (Text.cutLines t).zipIdx := List.mem_of_getElem? hline
      obtain rfl : p.2 = k := by
        rw [List.getElem?_zipIdx, Option.map_eq_some_iff] at hline
        obtain ⟨q, -, rfl⟩ := hline
        simp
      by_cases hempty : f.lineViolations w p = []
      · have hnot := mt (mem_groupsOf w f hp).1 (not_not.2 hempty)
        rw [hother _ hnot, getElem?_pieces hp, Option.map_some,
          SourceFile.rewrittenLine_of_no_violations hempty]
      · have hg : (p.2, (f.lineViolations w p).map Violation.columnOffset) ∈
            groupsOf w f (Text.cutLines t).zipIdx :=
          List.mem_map_of_mem (List.mem_filter.2 ⟨hp, by simpa using hempty⟩)
        rw [hsecured _ hg, getElem?_pieces hp, Option.map_some, secureColumns_violations w f hempty]
        rfl
  have hcount : ((groupsOf w f (Text.cutLines t).zipIdx).map fun g =>
      (secureColumns ((Text.pieces t).getD g.1 []) (ordered g.2)).2).sum =
        (f.violations w t).length := by
    rw [SourceFile.violations_eq, ← length_flatMap_filter, groupsOf, List.map_map]
    refine congrArg List.sum (List.map_congr_left fun p hp => ?_)
    obtain ⟨hp, hne⟩ := List.mem_filter.1 hp
    have hne : f.lineViolations w p ≠ [] := by simpa using hne
    rw [Function.comp_apply, List.getD_eq_getElem?_getD, getElem?_pieces hp, Option.getD_some,
      secureColumns_violations w f hne]
  rw [columnsByLine_violations, hok, hpieces, hcount]

/-- What follows the place of a byte order mark is cut off behind it. -/
theorem cutMark_append {mark t : Text} (hmark : mark = [Utf8.byteOrderMarkChar] ∨
    mark = [] ∧ t.head? ≠ some Utf8.byteOrderMarkChar) : cutMark (mark ++ t) = (mark, t) := by
  rcases hmark with rfl | ⟨rfl, ht⟩
  · rw [List.singleton_append, cutMark, if_pos rfl]
  · rcases t with _ | ⟨c, t⟩
    · rfl
    · rw [List.nil_append, cutMark, if_neg]
      rintro rfl
      exact ht rfl

/-- Replacing makes a file's text what it should be, and touches no byte order mark. -/
theorem inText_violations {mark : Text} (hmark : mark = [Utf8.byteOrderMarkChar] ∨
    mark = [] ∧ t.head? ≠ some Utf8.byteOrderMarkChar) :
    inText (mark ++ t) (f.violations w t) =
      .ok (mark ++ f.rewritten w t, (f.violations w t).length) := by
  rw [inText, cutMark_append hmark]
  dsimp only
  rw [secureLines_violations]
  simp only [bind, Except.bind, pure, Except.pure, SourceFile.rewritten, List.flatMap_def]

end File

end Replace

end InsecureLinks
