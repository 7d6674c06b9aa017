import Mathlib
import InsecureLinks.Proofs.Text.Occurrence
import InsecureLinks.Proofs.Text.Recut

/-!
# Positions

A place in a text can be given by its line and its column there, or by how many characters stand
before it.  `lineStart` leads from the one to the other.

A needle without line breaks cannot reach over a terminator, so it stands in a text exactly where it
stands in one of the lines (`starts_flatMap`).
-/

namespace InsecureLinks.Text

/-- How many characters stand before a line of a text, terminators included.  Lines count from 0. -/
def lineStart (cut : List (Text × Text)) (n : ℕ) : ℕ :=
  ((cut.take n).flatMap fun p => p.1 ++ p.2).length

theorem lineStart_zero (cut : List (Text × Text)) : lineStart cut 0 = 0 := by
  simp [lineStart]

theorem lineStart_cons_succ (p : Text × Text) (cut : List (Text × Text)) (n : ℕ) :
    lineStart (p :: cut) (n + 1) = p.1.length + p.2.length + lineStart cut n := by
  simp [lineStart, Nat.add_assoc]

theorem IsCut.of_cons {l e : Text} {rest : List (Text × Text)} (h : IsCut ((l, e) :: rest)) :
    (∀ c ∈ e, isLineBreak c = true) ∧ (e = [] → rest = []) ∧ IsCut rest := by
  cases h with
  | last => exact ⟨by simp, fun _ => rfl, .nil⟩
  | crlf _ hrest => exact ⟨by simp [isLineBreak], by simp, hrest⟩
  | cr _ hrest => exact ⟨by simp [isLineBreak], by simp, hrest⟩
  | lf _ hrest => exact ⟨by simp [isLineBreak], by simp, hrest⟩

/-! ## Needles that stay on one side -/

section Needle

variable {needle : Text}

theorem mem_starts_of_ne_nil (hne : needle ≠ []) {line : Text} {k : ℕ} :
    k ∈ starts needle line ↔ needle <+: line.drop k := by
  rw [mem_starts, and_iff_right_of_imp]
  intro hk
  by_contra hlong
  rw [List.drop_eq_nil_of_le (not_lt.1 hlong), List.prefix_nil] at hk
  exact hne hk

/-- A needle does not reach over a character that it does not have. -/
theorem prefix_of_prefix_append_cons {a u : Text} {c : Char} (hc : c ∉ needle)
    (h : needle <+: a ++ c :: u) : needle <+: a := by
  rcases le_or_gt needle.length a.length with hle | hlt
  · exact List.prefix_of_prefix_length_le h (List.prefix_append a _) hle
  · have hlong : a ++ [c] <+: needle := by
      refine List.prefix_of_prefix_length_le ?_ h (by simpa using hlt)
      exact ⟨u, by simp⟩
    exact absurd (hlong.subset (by simp)) hc

/-- Where no needle reaches from one text into the next, the two are searched one after the
other. -/
theorem starts_append {a u : Text}
    (h : ∀ k < a.length, needle <+: (a ++ u).drop k → needle <+: a.drop k) :
    starts needle (a ++ u) = starts needle a ++ (starts needle u).map (a.length + ·) := by
  have hleft : ∀ k ∈ List.range a.length,
      needle.isPrefixOf ((a ++ u).drop k) = needle.isPrefixOf (a.drop k) := by
    intro k hk
    have hk := List.mem_range.1 hk
    rw [Bool.eq_iff_iff, List.isPrefixOf_iff_prefix, List.isPrefixOf_iff_prefix]
    exact ⟨h k hk, fun hprefix => hprefix.trans ((List.prefix_append a u).drop k)⟩
  rw [starts, List.length_append, List.range_add, List.filter_append, List.filter_map,
    List.filter_congr hleft]
  congr 2
  exact List.filter_congr fun k _ => by simp

variable (hne : needle ≠ []) (hbreak : ∀ c ∈ needle, isLineBreak c = false)

include hne hbreak

theorem not_prefix_of_break {c : Char} {u : Text} (hc : isLineBreak c = true) :
    ¬needle <+: c :: u := by
  intro h
  rcases needle with _ | ⟨d, needle⟩
  · exact hne rfl
  · obtain ⟨rfl, -⟩ := List.cons_prefix_cons.1 h
    rw [hbreak d (by simp)] at hc
    cases hc

/-- The first line of a text is searched apart from the others. -/
theorem starts_line {l e rest : Text} (he : ∀ c ∈ e, isLineBreak c = true)
    (hend : e = [] → rest = []) :
    starts needle (l ++ e ++ rest) =
      starts needle l ++ (starts needle rest).map (l.length + e.length + ·) := by
  rcases e with _ | ⟨c, e⟩
  · rw [hend rfl, List.append_nil, List.append_nil]
    simp [starts]
  · have hterminator : starts needle (c :: e) = [] := by
      refine List.eq_nil_iff_forall_not_mem.2 fun k hk => ?_
      obtain ⟨hlt, hprefix⟩ := mem_starts.1 hk
      rw [List.drop_eq_getElem_cons hlt] at hprefix
      exact not_prefix_of_break hne hbreak (he _ (List.getElem_mem hlt)) hprefix
    have hc : c ∉ needle := by
      intro hmem
      have hc := he c (by simp)
      rw [hbreak c hmem] at hc
      cases hc
    rw [List.append_assoc, starts_append, starts_append, hterminator, List.nil_append,
      List.map_map]
    · congr 2
      funext k
      simp only [Function.comp_apply]
      omega
    · intro k hk hprefix
      rw [List.drop_append_of_le_length hk.le, List.drop_eq_getElem_cons hk] at hprefix
      exact absurd hprefix (not_prefix_of_break hne hbreak (he _ (List.getElem_mem hk)))
    · intro k hk hprefix
      rw [List.drop_append_of_le_length hk.le] at hprefix
      exact prefix_of_prefix_append_cons hc hprefix

/-- The places of a needle in a text are those in its lines, from line to line. -/
theorem starts_flatMap {cut : List (Text × Text)} (hcut : IsCut cut) :
    starts needle (cut.flatMap fun p => p.1 ++ p.2) =
      cut.zipIdx.flatMap fun p => (starts needle p.1.1).map (lineStart cut p.2 + ·) := by
  induction cut with
  | nil => rfl
  | cons p cut ih =>
    obtain ⟨hbreaks, hend, hrest⟩ := IsCut.of_cons hcut
    rw [List.flatMap_cons, starts_line hne hbreak hbreaks fun he => by rw [hend he]; rfl, ih hrest,
      List.zipIdx_cons, List.flatMap_cons, List.zipIdx_succ, List.flatMap_map, List.map_flatMap]
    congr 1
    · simp [lineStart_zero]
    · refine List.flatMap_congr fun q _ => ?_
      simp [lineStart_cons_succ, Function.comp_def, Nat.add_assoc]

end Needle

end InsecureLinks.Text
