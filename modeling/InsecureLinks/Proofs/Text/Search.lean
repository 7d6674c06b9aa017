import Mathlib
import InsecureLinks.Proofs.Text.Occurrence

/-!
# Searching from left to right

Looking for a needle, one takes the first place at which it stands, goes on after the end of it, and
stops where it comes no more (`SearchFrom`).  `Text.occurrences` reads the line once and counts the
characters that it passes over instead, and finds the same (`searchFrom_iff`).

A needle may stand at places that overlap.  Of these the search keeps the leftmost, and every place
that it does not keep begins inside one that it does (`occurrences_leftmost`).
-/

namespace InsecureLinks.Text

/-- Whether `k` is the first column from `start` on at which `needle` stands in `line`. -/
structure IsFirstFrom (needle line : Text) (start k : ℕ) : Prop where
  le : start ≤ k
  stands : needle <+: line.drop k
  first : ∀ j, start ≤ j → j < k → ¬needle <+: line.drop j

/-- Whether a search that begins at a column finds these columns. -/
inductive SearchFrom (needle line : Text) : ℕ → List ℕ → Prop
  | stop {start : ℕ} (absent : ∀ k, start ≤ k → ¬needle <+: line.drop k) :
      SearchFrom needle line start []
  | next {start k : ℕ} {ks : List ℕ} (first : IsFirstFrom needle line start k)
      (rest : SearchFrom needle line (k + needle.length) ks) :
      SearchFrom needle line start (k :: ks)

variable {needle line : Text} {start k : ℕ} {ks : List ℕ}

theorem IsFirstFrom.of_succ (h : IsFirstFrom needle line (start + 1) k)
    (habsent : ¬needle <+: line.drop start) : IsFirstFrom needle line start k where
  le := Nat.le_of_succ_le h.le
  stands := h.stands
  first j hj hjk := by
    by_cases hstart : j = start
    · rwa [hstart]
    · exact h.first j (by omega) hjk

theorem IsFirstFrom.unique {k' : ℕ} (h : IsFirstFrom needle line start k)
    (h' : IsFirstFrom needle line start k') : k = k' := by
  apply le_antisymm
  · by_contra hlt
    exact h.first k' h'.le (by omega) h'.stands
  · by_contra hlt
    exact h'.first k h.le (by omega) h.stands

/-- A needle ends in the line. -/
theorem add_length_le (hne : needle ≠ []) (h : needle <+: line.drop k) :
    k + needle.length ≤ line.length := by
  have hlength := h.length_le
  have hpos := List.length_pos_of_ne_nil hne
  rw [List.length_drop] at hlength
  omega

namespace SearchFrom

/-- A column at which the needle does not stand can be passed over. -/
theorem of_succ (h : SearchFrom needle line (start + 1) ks)
    (habsent : ¬needle <+: line.drop start) : SearchFrom needle line start ks := by
  cases h with
  | stop hnone =>
    refine stop fun k hk => ?_
    by_cases hstart : k = start
    · rwa [hstart]
    · exact hnone k (by omega)
  | next first rest => exact next (first.of_succ habsent) rest

/-- Searches that begin at the same column find the same. -/
theorem unique {ks' : List ℕ} (h : SearchFrom needle line start ks)
    (h' : SearchFrom needle line start ks') : ks = ks' := by
  induction h generalizing ks' with
  | stop absent =>
    cases h' with
    | stop => rfl
    | next first => exact absurd first.stands (absent _ first.le)
  | next first rest ih =>
    cases h' with
    | stop absent => exact absurd first.stands (absent _ first.le)
    | next first' rest' =>
      obtain rfl := first.unique first'
      rw [ih rest']

/-! ## What a search finds -/

theorem stands (h : SearchFrom needle line start ks) : ∀ k ∈ ks, needle <+: line.drop k := by
  induction h with
  | stop absent => simp
  | next first rest ih => exact List.forall_mem_cons.2 ⟨first.stands, ih⟩

theorem start_le (h : SearchFrom needle line start ks) : ∀ k ∈ ks, start ≤ k := by
  induction h with
  | stop absent => simp
  | next first rest ih =>
    refine List.forall_mem_cons.2 ⟨first.le, fun j hj => ?_⟩
    exact first.le.trans ((Nat.le_add_right _ _).trans (ih j hj))

/-- Each column is behind the end of those before. -/
theorem pairwise (h : SearchFrom needle line start ks) :
    ks.Pairwise fun j k => j + needle.length ≤ k := by
  induction h with
  | stop absent => exact List.Pairwise.nil
  | next first rest ih => exact List.pairwise_cons.2 ⟨rest.start_le, ih⟩

theorem head (h : SearchFrom needle line start ks) :
    ∀ k ∈ ks.head?, IsFirstFrom needle line start k := by
  cases h with
  | stop absent => simp
  | next first rest => simpa using first

/-- Each column is the first behind the end of the one before. -/
theorem isChain (h : SearchFrom needle line start ks) :
    ks.IsChain fun j k => IsFirstFrom needle line (j + needle.length) k := by
  induction h with
  | stop absent => exact List.IsChain.nil
  | next first rest ih => exact List.isChain_cons.2 ⟨rest.head, ih⟩

/-- A needle stands nowhere but at the columns found and inside of what was found there. -/
theorem covers (h : SearchFrom needle line start ks) {j : ℕ} (hj : start ≤ j)
    (hstands : needle <+: line.drop j) :
    j ∈ ks ∨ ∃ k ∈ ks, k < j ∧ j < k + needle.length := by
  induction h with
  | stop absent => exact absurd hstands (absent j hj)
  | @next start k ks first rest ih =>
    by_cases hbefore : j < k
    · exact absurd hstands (first.first j hj hbefore)
    by_cases hbehind : k + needle.length ≤ j
    · rcases ih hbehind with hmem | ⟨i, hi, hij⟩
      · exact .inl (List.mem_cons_of_mem k hmem)
      · exact .inr ⟨i, List.mem_cons_of_mem k hi, hij⟩
    · by_cases hfound : j = k
      · exact .inl (hfound ▸ List.mem_cons_self)
      · exact .inr ⟨k, List.mem_cons_self, by omega, by omega⟩

/-- A search comes to an end after as many finds as there is room for. -/
theorem length_le (hne : needle ≠ []) (h : SearchFrom needle line start ks)
    (hstart : start ≤ line.length) : start + ks.length * needle.length ≤ line.length := by
  induction h with
  | stop absent => simpa using hstart
  | next first rest ih =>
    have hrest := ih (add_length_le hne first.stands)
    have hle := first.le
    rw [List.length_cons, Nat.succ_mul]
    omega

end SearchFrom

/-! ## Reading the line once -/

/-- Reading what is left of a line, with some characters still to be passed over, is the search that
begins behind these. -/
theorem searchFrom_occurrencesFrom (hne : needle ≠ []) {column skip : ℕ} {t : Text}
    (ht : line.drop column = t) :
    SearchFrom needle line (column + skip) (occurrencesFrom needle column skip t) := by
  induction t generalizing column skip with
  | nil =>
    rw [occurrencesFrom]
    refine .stop fun k hk hstands => hne ?_
    rw [List.drop_eq_nil_iff] at ht
    rwa [List.drop_eq_nil_of_le (by omega), List.prefix_nil] at hstands
  | cons c t ih =>
    have htail : line.drop (column + 1) = t := by
      rw [← List.drop_drop, ht, List.drop_one, List.tail_cons]
    cases skip with
    | succ skip =>
      rw [occurrencesFrom]
      have hrest := @ih (column + 1) skip htail
      rwa [Nat.add_right_comm] at hrest
    | zero =>
      rw [occurrencesFrom, Nat.add_zero]
      by_cases hprefix : needle <+: c :: t
      · have hpos := List.length_pos_of_ne_nil hne
        have hrest := @ih (column + 1) (needle.length - 1) htail
        rw [show column + 1 + (needle.length - 1) = column + needle.length by omega] at hrest
        rw [if_pos (List.isPrefixOf_iff_prefix.2 hprefix)]
        refine .next ⟨le_rfl, ht ▸ hprefix, fun j hj hlt => ?_⟩ hrest
        exact absurd hlt (not_lt.2 hj)
      · rw [if_neg (mt List.isPrefixOf_iff_prefix.1 hprefix)]
        exact (@ih (column + 1) 0 htail).of_succ (ht ▸ hprefix)

/-- What is found in a line is what the search from its first column on finds. -/
theorem searchFrom_iff (hne : needle ≠ []) :
    SearchFrom needle line 0 ks ↔ ks = occurrences needle line := by
  have hfinds : SearchFrom needle line 0 (occurrences needle line) :=
    @searchFrom_occurrencesFrom needle line hne 0 0 line rfl
  constructor
  · intro h
    exact h.unique hfinds
  · rintro rfl
    exact hfinds

/-- The columns found are the first at which the needle stands, and then always the first behind the
end of the one before, until there is none; there is room for all of them side by side.  Where the
needle stands elsewhere, it begins inside of one that was found, and if it has no border it stands
nowhere else. -/
theorem occurrences_leftmost (hne : needle ≠ []) (line : Text) :
    (∀ ks, SearchFrom needle line 0 ks ↔ ks = occurrences needle line) ∧
      (occurrences needle line).length * needle.length ≤ line.length ∧
      (occurrences needle line).Pairwise (fun j k => j + needle.length ≤ k) ∧
      (∀ k ∈ occurrences needle line, needle <+: line.drop k) ∧
      (∀ k ∈ (occurrences needle line).head?, IsFirstFrom needle line 0 k) ∧
      (occurrences needle line).IsChain
        (fun j k => IsFirstFrom needle line (j + needle.length) k) ∧
      (∀ j, needle <+: line.drop j → j ∉ occurrences needle line →
        ∃ k ∈ occurrences needle line, k < j ∧ j < k + needle.length) ∧
      (IsBorderFree needle →
        ∀ j, j ∈ occurrences needle line ↔ needle <+: line.drop j) := by
  have hsearch : SearchFrom needle line 0 (occurrences needle line) :=
    (searchFrom_iff hne).2 rfl
  refine ⟨fun ks => searchFrom_iff hne, ?_, hsearch.pairwise, hsearch.stands, hsearch.head,
    hsearch.isChain, fun j hstands hj => ?_, fun hfree j => ⟨hsearch.stands j, fun hstands => ?_⟩⟩
  · simpa using hsearch.length_le hne (Nat.zero_le _)
  · exact (hsearch.covers (Nat.zero_le j) hstands).resolve_left hj
  · have hend := add_length_le hne hstands
    have hpos := List.length_pos_of_ne_nil hne
    rw [occurrences_eq_starts hfree, mem_starts]
    exact ⟨by omega, hstands⟩

/-- A needle that overlaps with itself stands at four places, of which two are found. -/
theorem occurrences_leftmost_overlapping :
    occurrences "aba".toList "ababababa".toList = [0, 4] ∧
      ∃ k ∈ occurrences "aba".toList "ababababa".toList, k < 6 ∧ 6 < k + "aba".toList.length := by
  have hfound : occurrences "aba".toList "ababababa".toList = [0, 4] := by decide
  obtain ⟨-, -, -, -, -, -, hinside, -⟩ :=
    occurrences_leftmost (show "aba".toList ≠ [] by decide) "ababababa".toList
  refine ⟨hfound, hinside 6 (by decide) ?_⟩
  rw [hfound]
  decide

end InsecureLinks.Text
