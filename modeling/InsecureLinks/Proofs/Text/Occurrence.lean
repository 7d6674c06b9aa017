import Mathlib
import InsecureLinks.Text.Occurrence
import InsecureLinks.Report.Violation

/-!
# All occurrences

`Text.occurrences` goes on after the end of each occurrence that it finds.  A needle that has no
proper border cannot begin inside itself, so nothing is passed over in that way, and what is found
are the columns at which the needle stands (`occurrences_eq_starts`).  The link that must not occur
is such a needle (`insecure_isBorderFree`).
-/

namespace InsecureLinks.Text

/-- The columns at which `needle` stands in `line`, from left to right. -/
def starts (needle line : Text) : List ℕ :=
  (List.range line.length).filter fun k => needle.isPrefixOf (line.drop k)

/-- No beginning of `needle` but itself and the empty one is an end of it. -/
def IsBorderFree (needle : Text) : Prop :=
  ∀ k, 0 < k → k < needle.length → ¬needle.drop k <+: needle

variable {needle line : Text}

theorem mem_starts {k : ℕ} :
    k ∈ starts needle line ↔ k < line.length ∧ needle <+: line.drop k := by
  simp [starts]

theorem starts_sorted (needle line : Text) : (starts needle line).Pairwise (· < ·) :=
  List.pairwise_lt_range.filter _

theorem starts_cons (needle : Text) (c : Char) (t : Text) :
    starts needle (c :: t) =
      (if needle.isPrefixOf (c :: t) then [0] else []) ++ (starts needle t).map (· + 1) := by
  rw [starts, List.length_cons, List.range_succ_eq_map, List.filter_cons, List.filter_map, starts]
  simp only [List.drop_zero]
  split
  · rfl
  · rfl

/-- The end of a needle that stands at two near places is a beginning of it. -/
theorem drop_prefix_of_overlap {s : Text} {k : ℕ} (h : needle <+: s) (hk : needle <+: s.drop k) :
    needle.drop k <+: needle := by
  have hdrop : needle.drop k <+: s.drop k := by
    obtain ⟨u, rfl⟩ := h
    rw [List.drop_append]
    exact List.prefix_append _ _
  exact List.prefix_of_prefix_length_le hdrop hk (by simp)

/-- What is passed over after an occurrence holds no further one, so the columns found are those
at which the needle stands. -/
theorem occurrencesFrom_eq (hfree : IsBorderFree needle) (column skip : ℕ) (t : Text)
    (hskip : ∀ i < skip, ¬needle <+: t.drop i) :
    occurrencesFrom needle column skip t = (starts needle t).map (column + ·) := by
  induction t generalizing column skip with
  | nil => simp [occurrencesFrom, starts]
  | cons c t ih =>
    have shift : ((starts needle t).map (· + 1)).map (column + ·) =
        (starts needle t).map (column + 1 + ·) := by
      rw [List.map_map]
      congr 1
      funext k
      simp only [Function.comp_apply]
      omega
    rw [starts_cons, List.map_append, shift]
    rcases skip with _ | skip
    · rw [occurrencesFrom]
      split_ifs with hprefix
      · rw [ih]
        · simp
        · intro i hi hstands
          have hc : needle <+: c :: t := by simpa using hprefix
          exact hfree (i + 1) (by omega) (by omega) (drop_prefix_of_overlap hc hstands)
      · rw [ih]
        · simp
        · simp
    · have hc : ¬needle <+: c :: t := hskip 0 (by omega)
      rw [occurrencesFrom, if_neg (by simpa using hc), ih]
      · simp
      · intro i hi
        exact hskip (i + 1) (by omega)

/-- Every place at which a needle without borders stands is found, and no other. -/
theorem occurrences_eq_starts (hfree : IsBorderFree needle) (line : Text) :
    occurrences needle line = starts needle line := by
  rw [occurrences, occurrencesFrom_eq hfree 0 0 line (by simp)]
  simp

end InsecureLinks.Text

namespace InsecureLinks

theorem insecure_isBorderFree : Text.IsBorderFree insecure := by
  intro k hpos hlt
  have hk : k < 7 := hlt
  interval_cases k <;> decide

end InsecureLinks
