import Mathlib
import InsecureLinks.Text.Basic

/-!
# Fields

Texts without a separator are got back from their join (`fields_join`).  A text with a separator is
cut at the last one (`cutLast?_append`).
-/

namespace InsecureLinks.Text

variable {sep : Char}

attribute [local simp] fields

theorem fields_ne_nil (t : Text) : fields sep t ≠ [] := by
  rcases t with _ | ⟨c, t⟩
  · simp
  · rw [fields]
    split
    · simp
    · split <;> simp

theorem not_mem_of_mem_fields {f t : Text} (h : f ∈ fields sep t) : sep ∉ f := by
  induction t generalizing f with
  | nil =>
    obtain rfl := List.mem_singleton.1 h
    exact List.not_mem_nil
  | cons c t ih =>
    rw [fields] at h
    split_ifs at h with hc
    · rcases List.mem_cons.1 h with rfl | h
      · exact List.not_mem_nil
      · exact ih h
    · obtain ⟨g, gs, hg⟩ := List.exists_cons_of_ne_nil (@fields_ne_nil sep t)
      rw [hg] at h ih
      rcases List.mem_cons.1 h with rfl | h
      · have hnot := ih (List.mem_cons_self ..)
        simpa [hnot] using Ne.symm hc
      · exact ih (List.mem_cons_of_mem _ h)

theorem fields_of_not_mem {f : Text} (h : sep ∉ f) : fields sep f = [f] := by
  induction f with
  | nil => rfl
  | cons c f ih =>
    simp only [List.mem_cons, not_or] at h
    rw [fields, if_neg (Ne.symm h.1), ih h.2]

theorem fields_append_sep {f : Text} (t : Text) (h : sep ∉ f) :
    fields sep (f ++ sep :: t) = f :: fields sep t := by
  induction f with
  | nil => rw [List.nil_append, fields, if_pos rfl]
  | cons c f ih =>
    simp only [List.mem_cons, not_or] at h
    rw [List.cons_append, fields, if_neg (Ne.symm h.1), ih h.2]

theorem join_cons {t : Text} {ts : List Text} (h : ts ≠ []) (s : Text) :
    join s (t :: ts) = t ++ (s ++ join s ts) := by
  obtain ⟨u, us, rfl⟩ := List.exists_cons_of_ne_nil h
  rw [join, List.append_assoc]

theorem join_append {ts us : List Text} (hts : ts ≠ []) (hus : us ≠ []) (s : Text) :
    join s (ts ++ us) = join s ts ++ (s ++ join s us) := by
  induction ts with
  | nil => exact absurd rfl hts
  | cons t ts ih =>
    rcases eq_or_ne ts [] with rfl | hne
    · exact join_cons hus s
    · rw [List.cons_append, join_cons (by simp [hne]), ih hne, join_cons hne]
      simp only [List.append_assoc]

/-- The fields of a join are what was joined. -/
theorem fields_join {ts : List Text} (hne : ts ≠ []) (h : ∀ t ∈ ts, sep ∉ t) :
    fields sep (join [sep] ts) = ts := by
  induction ts with
  | nil => exact absurd rfl hne
  | cons t ts ih =>
    have ht : sep ∉ t := h t (by simp)
    rcases eq_or_ne ts [] with rfl | hts
    · exact fields_of_not_mem ht
    · rw [join_cons hts, List.singleton_append, fields_append_sep _ ht,
        ih hts fun u hu => h u (by simp [hu])]

/-- A text is got back from its fields. -/
theorem join_fields (sep : Char) (t : Text) : join [sep] (fields sep t) = t := by
  induction t with
  | nil => rfl
  | cons c t ih =>
    obtain ⟨f, fs, hfields⟩ := List.exists_cons_of_ne_nil (@fields_ne_nil sep t)
    rw [hfields] at ih
    rw [fields, hfields]
    split_ifs with hc
    · rw [join_cons (by simp), ih, hc]
      rfl
    · rcases eq_or_ne fs [] with rfl | hfs
      · exact congrArg (c :: ·) ih
      · rw [join_cons hfs] at ih
        rw [join_cons hfs, List.cons_append, ih]

theorem mem_join {c : Char} {s : Text} {ts : List Text} (h : c ∈ join s ts) :
    c ∈ s ∨ ∃ t ∈ ts, c ∈ t := by
  induction ts with
  | nil => cases h
  | cons t ts ih =>
    rcases eq_or_ne ts [] with rfl | hts
    · exact .inr ⟨t, by simp, h⟩
    · rw [join_cons hts] at h
      rcases List.mem_append.1 h with h | h
      · exact .inr ⟨t, by simp, h⟩
      · rcases List.mem_append.1 h with h | h
        · exact .inl h
        · rcases ih h with h | ⟨u, hu, h⟩
          · exact .inl h
          · exact .inr ⟨u, by simp [hu], h⟩

theorem subset_join {s t : Text} {ts : List Text} (h : t ∈ ts) : t ⊆ join s ts := by
  induction ts with
  | nil => cases h
  | cons u ts ih =>
    rcases eq_or_ne ts [] with rfl | hts
    · rw [List.mem_singleton.1 h]
      exact List.Subset.refl _
    · rw [join_cons hts]
      rcases List.mem_cons.1 h with rfl | h
      · exact List.subset_append_left _ _
      · exact List.subset_append_of_subset_right _ (List.subset_append_of_subset_right _ (ih h))

/-! ## Replaced characters -/

theorem replaceChar_of_not_mem {old : Char} {t : Text} (h : old ∉ t) (new : Char) :
    replaceChar old new t = t := by
  refine (List.map_congr_left fun c hc => if_neg ?_).trans (List.map_id t)
  rintro rfl
  exact h hc

/-! ## The last separator -/

theorem eq_of_cutLast? {t a b : Text} (h : cutLast? sep t = some (a, b)) :
    t = a ++ sep :: b := by
  induction t generalizing a with
  | nil => cases h
  | cons c t ih =>
    rw [cutLast?] at h
    rcases hrest : cutLast? sep t with _ | ⟨a', b'⟩
    · rw [hrest] at h
      dsimp only at h
      split_ifs at h with hc
      cases h
      rw [hc, List.nil_append]
    · rw [hrest] at h
      cases h
      rw [ih hrest, List.cons_append]

theorem cutLast?_of_not_mem {t : Text} (h : sep ∉ t) : cutLast? sep t = none := by
  induction t with
  | nil => rfl
  | cons c t ih =>
    rw [List.mem_cons, not_or] at h
    rw [cutLast?, ih h.2]
    exact if_neg (Ne.symm h.1)

/-- A text without the separator is what stands after the last separator before it. -/
theorem cutLast?_append {b : Text} (h : sep ∉ b) (a : Text) :
    cutLast? sep (a ++ sep :: b) = some (a, b) := by
  induction a with
  | nil =>
    rw [List.nil_append, cutLast?, cutLast?_of_not_mem h]
    exact if_pos rfl
  | cons c a ih => rw [List.cons_append, cutLast?, ih]

theorem exists_last_of_mem {t : Text} (h : sep ∈ t) :
    ∃ a b, t = a ++ sep :: b ∧ sep ∉ b := by
  induction t with
  | nil => cases h
  | cons c t ih =>
    by_cases ht : sep ∈ t
    · obtain ⟨a, b, rfl, hb⟩ := ih ht
      exact ⟨c :: a, b, rfl, hb⟩
    · obtain rfl : sep = c := (List.mem_cons.1 h).resolve_right ht
      exact ⟨[], t, rfl, ht⟩

end InsecureLinks.Text
