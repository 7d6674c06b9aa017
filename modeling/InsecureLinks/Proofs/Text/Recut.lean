import Mathlib
import InsecureLinks.Proofs.Text.Line

/-!
# Changing lines in place

A text with its lines changed but its terminators kept (`changeLines`).  If no change brings a line
break into a line, or makes a line empty that was not, the changed text is cut at the same breaks
(`cutLines_changeLines`).  An empty line is what matters between `CR` and `LF`, and at the end of a
text.
-/

namespace InsecureLinks.Text

/-! ## What can be a cut -/

/-- Whether some lines with their terminators are the cut of a text. -/
inductive IsCut : List (Text × Text) → Prop
  | nil : IsCut []
  | last {l} (hline : ∀ c ∈ l, isLineBreak c = false) (hne : l ≠ []) : IsCut [(l, [])]
  | crlf {l rest} (hline : ∀ c ∈ l, isLineBreak c = false) (hrest : IsCut rest) :
      IsCut ((l, ['\r', '\n']) :: rest)
  | cr {l rest} (hline : ∀ c ∈ l, isLineBreak c = false) (hrest : IsCut rest)
      (hnext : rest.head? ≠ some ([], ['\n'])) : IsCut ((l, ['\r']) :: rest)
  | lf {l rest} (hline : ∀ c ∈ l, isLineBreak c = false) (hrest : IsCut rest) :
      IsCut ((l, ['\n']) :: rest)

theorem isCut_cons_char {c : Char} (hc : isLineBreak c = false) {l e : Text}
    {rest : List (Text × Text)} (h : IsCut ((l, e) :: rest)) : IsCut ((c :: l, e) :: rest) := by
  have hline : (∀ d ∈ l, isLineBreak d = false) → ∀ d ∈ c :: l, isLineBreak d = false :=
    fun h => List.forall_mem_cons.2 ⟨hc, h⟩
  cases h with
  | last h hne => exact .last (hline h) (List.cons_ne_nil c l)
  | crlf h hrest => exact .crlf (hline h) hrest
  | cr h hrest hnext => exact .cr (hline h) hrest hnext
  | lf h hrest => exact .lf (hline h) hrest

theorem isCut_cutLines (t : Text) : IsCut (cutLines t) := by
  induction t using break_induction with
  | nil => exact .nil
  | crlf t ih => exact cutLines_crlf ▸ .crlf (by simp) ih
  | cr t h ih =>
    rw [cutLines_cr h]
    refine .cr (by simp) ih fun hnext => h ?_
    have ht := flatMap_cutLines t
    rcases hcut : cutLines t with _ | ⟨p, rest⟩
    · rw [hcut] at hnext
      cases hnext
    · rw [hcut] at hnext ht
      cases hnext
      rw [← ht]
      rfl
  | lf t ih => exact cutLines_lf ▸ .lf (by simp) ih
  | char c t h ih =>
    rw [cutLines_char h]
    rcases hcut : cutLines t with _ | ⟨⟨l, e⟩, rest⟩
    · exact .last (by simpa using h) (by simp)
    · rw [hcut] at ih
      exact isCut_cons_char h ih

/-- A line without line breaks stands before the first terminator. -/
theorem cutLines_append {l e t : Text} {rest : List (Text × Text)}
    (hline : ∀ c ∈ l, isLineBreak c = false) (h : cutLines t = ([], e) :: rest) :
    cutLines (l ++ t) = (l, e) :: rest := by
  induction l with
  | nil => exact h
  | cons c l ih =>
    obtain ⟨hc, hl⟩ := List.forall_mem_cons.1 hline
    rw [List.cons_append, cutLines_char hc, ih hl]

theorem cutLines_of_no_break {l : Text} (hline : ∀ c ∈ l, isLineBreak c = false) (hne : l ≠ []) :
    cutLines l = [(l, [])] := by
  induction l with
  | nil => exact absurd rfl hne
  | cons c l ih =>
    obtain ⟨hc, hl⟩ := List.forall_mem_cons.1 hline
    rw [cutLines_char hc]
    rcases eq_or_ne l [] with rfl | hl'
    · rfl
    · rw [ih hl hl']

/-- The text of a cut begins with a line feed only if its first line is empty and ends in one. -/
theorem IsCut.head_flatMap {ps : List (Text × Text)} (h : IsCut ps)
    (hhead : (ps.flatMap fun p => p.1 ++ p.2).head? = some '\n') :
    ps.head? = some ([], ['\n']) := by
  have hempty : ∀ {l e : Text}, (∀ c ∈ l, isLineBreak c = false) →
      (l ++ e).head? = some '\n' → l = [] := by
    intro l e hline hl
    rcases l with _ | ⟨c, l⟩
    · rfl
    · obtain rfl : c = '\n' := by simpa using hl
      exact absurd (hline '\n' (by simp)) (by decide)
  cases h with
  | nil => cases hhead
  | last hline hne =>
    rw [List.flatMap_singleton] at hhead
    exact absurd (hempty hline hhead) hne
  | crlf hline hrest =>
    rw [List.flatMap_cons, List.append_assoc] at hhead
    obtain rfl := hempty hline hhead
    simp at hhead
  | cr hline hrest hnext =>
    rw [List.flatMap_cons, List.append_assoc] at hhead
    obtain rfl := hempty hline hhead
    simp at hhead
  | lf hline hrest =>
    rw [List.flatMap_cons, List.append_assoc] at hhead
    obtain rfl := hempty hline hhead
    rfl

/-- What can be a cut is the cut of its text. -/
theorem IsCut.cutLines_flatMap {ps : List (Text × Text)} (h : IsCut ps) :
    cutLines (ps.flatMap fun p => p.1 ++ p.2) = ps := by
  induction h with
  | nil => rfl
  | last hline hne =>
    rw [List.flatMap_singleton, List.append_nil]
    exact cutLines_of_no_break hline hne
  | crlf hline hrest ih =>
    rw [List.flatMap_cons, List.append_assoc]
    exact cutLines_append hline (by rw [List.cons_append, List.singleton_append, cutLines_crlf, ih])
  | cr hline hrest hnext ih =>
    rw [List.flatMap_cons, List.append_assoc]
    refine cutLines_append hline ?_
    rw [List.singleton_append, cutLines_cr fun hhead => hnext (hrest.head_flatMap hhead), ih]
  | lf hline hrest ih =>
    rw [List.flatMap_cons, List.append_assoc]
    exact cutLines_append hline (by rw [List.singleton_append, cutLines_lf, ih])

/-! ## Changed lines -/

/-- A text with each line changed, by what it is and by its number, and each terminator kept. -/
def changeLines (change : Text → ℕ → Text) (t : Text) : Text :=
  (cutLines t).zipIdx.flatMap fun p => change p.1.1 p.2 ++ p.1.2

/-- Whether a change of lines keeps them lines. -/
structure KeepsLines (change : Text → ℕ → Text) : Prop where
  noBreak : ∀ l k, (∀ c ∈ l, isLineBreak c = false) → ∀ c ∈ change l k, isLineBreak c = false
  eq_nil_iff : ∀ l k, change l k = [] ↔ l = []

section Change

variable {change : Text → ℕ → Text} (h : KeepsLines change)

include h

theorem KeepsLines.isCut {ps : List (Text × Text)} (hps : IsCut ps) (n : ℕ) :
    IsCut ((ps.zipIdx n).map fun p => (change p.1.1 p.2, p.1.2)) := by
  induction hps generalizing n with
  | nil => exact .nil
  | last hline hne => exact .last (h.noBreak _ _ hline) (mt (h.eq_nil_iff _ _).1 hne)
  | crlf hline hrest ih => exact .crlf (h.noBreak _ _ hline) (ih (n + 1))
  | @cr l rest hline hrest hnext ih =>
    refine .cr (h.noBreak _ _ hline) (ih (n + 1)) fun hhead => hnext ?_
    rcases rest with _ | ⟨⟨m, e⟩, rest⟩
    · cases hhead
    · obtain ⟨hm, he⟩ := Prod.mk.inj (Option.some.inj hhead)
      obtain rfl : m = [] := (h.eq_nil_iff _ _).1 hm
      obtain rfl : e = ['\n'] := he
      rfl
  | lf hline hrest ih => exact .lf (h.noBreak _ _ hline) (ih (n + 1))

/-- The cut of a text with changed lines. -/
theorem KeepsLines.cutLines_changeLines (t : Text) :
    cutLines (changeLines change t) =
      (cutLines t).zipIdx.map fun p => (change p.1.1 p.2, p.1.2) := by
  have hflat : changeLines change t =
      ((cutLines t).zipIdx.map fun p => (change p.1.1 p.2, p.1.2)).flatMap fun p => p.1 ++ p.2 := by
    rw [changeLines, List.flatMap_map]
  rw [hflat, (h.isCut (isCut_cutLines t) 0).cutLines_flatMap]

/-- If no change touches the first character of a line, a text begins as it did. -/
theorem KeepsLines.head_changeLines (hhead : ∀ l k, (change l k).head? = l.head?) (t : Text) :
    (changeLines change t).head? = t.head? := by
  have hlines : ∀ ps : List (Text × Text), IsCut ps → ∀ n,
      ((ps.zipIdx n).flatMap fun p => change p.1.1 p.2 ++ p.1.2).head? =
        (ps.flatMap fun p => p.1 ++ p.2).head? := by
    intro ps hps n
    have hfirst : ∀ (l e : Text) (u u' : Text), l ++ e ≠ [] →
        (change l n ++ e ++ u).head? = (l ++ e ++ u').head? := by
      intro l e u u' hne
      rcases eq_or_ne l [] with rfl | hl
      · rw [(h.eq_nil_iff _ _).2 rfl]
        obtain ⟨c, e, rfl⟩ := List.exists_cons_of_ne_nil (show e ≠ [] from hne)
        rfl
      · obtain ⟨c, l', hl'⟩ := List.exists_cons_of_ne_nil (mt (h.eq_nil_iff l n).1 hl)
        have hc := hhead l n
        rw [hl'] at hc
        obtain ⟨d, m, rfl⟩ := List.exists_cons_of_ne_nil hl
        rw [hl']
        simpa using hc
    cases hps with
    | nil => rfl
    | last hline hne => exact hfirst _ _ _ _ (by simpa using hne)
    | crlf hline hrest => exact hfirst _ _ _ _ (by simp)
    | cr hline hrest hnext => exact hfirst _ _ _ _ (by simp)
    | lf hline hrest => exact hfirst _ _ _ _ (by simp)
  rw [changeLines, hlines _ (isCut_cutLines t) 0]
  exact congrArg List.head? (flatMap_cutLines t)

end Change

/-- Lines that are not changed leave the text as it is. -/
theorem changeLines_of_eq {change : Text → ℕ → Text} {t : Text}
    (h : ∀ p ∈ (cutLines t).zipIdx, change p.1.1 p.2 = p.1.1) : changeLines change t = t := by
  have hlines : changeLines change t =
      (cutLines t).zipIdx.flatMap fun p => p.1.1 ++ p.1.2 := by
    rw [changeLines, List.flatMap_def, List.flatMap_def]
    refine congrArg List.flatten (List.map_congr_left fun p hp => ?_)
    rw [h p hp]
  have hfst : (cutLines t).zipIdx.flatMap (fun p => p.1.1 ++ p.1.2) =
      ((cutLines t).zipIdx.map Prod.fst).flatMap fun p => p.1 ++ p.2 := by
    rw [List.flatMap_map]
  rw [hlines, hfst, List.zipIdx_map_fst]
  exact flatMap_cutLines t

end InsecureLinks.Text
