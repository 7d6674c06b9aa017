import Mathlib
import InsecureLinks.Text.Blank

/-!
# Stripping

What `Text.strip` leaves neither begins nor ends with a blank, and what it takes from the end are
blanks.  It adds nothing, and blanks around a text make no difference to it (`strip_padded`).
-/

namespace InsecureLinks.Text

theorem stripRight_eq_rdropWhile (t : Text) : stripRight t = t.rdropWhile isBlank := rfl

/-- A text is what is left of it on the right, followed by blanks. -/
theorem exists_blanks (t : Text) :
    ∃ w, t = stripRight t ++ w ∧ ∀ c ∈ w, isBlank c = true := by
  induction t using List.reverseRecOn with
  | nil => exact ⟨[], rfl, by simp⟩
  | append_singleton t c ih =>
    by_cases hc : isBlank c = true
    · obtain ⟨w, ht, hw⟩ := ih
      refine ⟨w ++ [c], ?_, ?_⟩
      · rw [stripRight_eq_rdropWhile, List.rdropWhile_concat_pos _ _ _ hc,
          ← stripRight_eq_rdropWhile, ← List.append_assoc, ← ht]
      · simpa [or_imp, forall_and, hc] using hw
    · refine ⟨[], ?_, by simp⟩
      rw [stripRight_eq_rdropWhile, List.rdropWhile_concat_neg _ _ _ hc, List.append_nil]

theorem strip_subset (t : Text) : t.strip ⊆ t := by
  have hright : stripRight (stripLeft t) <+: stripLeft t := by
    rw [stripRight_eq_rdropWhile]
    exact List.rdropWhile_prefix _ _
  exact fun c hc => (List.dropWhile_sublist _).subset (hright.subset hc)

theorem stripLeft_of_head {t : Text} (h : ∀ c, t.head? = some c → isBlank c = false) :
    stripLeft t = t := by
  rcases t with _ | ⟨c, t⟩
  · rfl
  · rw [stripLeft, List.dropWhile_cons_of_neg]
    simpa using h c rfl

theorem head_stripLeft {t : Text} {c : Char} (h : (stripLeft t).head? = some c) :
    isBlank c = false := by
  have hdrop := List.head?_dropWhile_not isBlank t
  rw [← stripLeft, h] at hdrop
  simpa using hdrop

theorem head_strip {t : Text} {c : Char} (h : t.strip.head? = some c) : isBlank c = false := by
  obtain ⟨w, hw, -⟩ := exists_blanks (stripLeft t)
  rcases hs : stripRight (stripLeft t) with _ | ⟨d, u⟩
  · rw [strip, hs] at h
    cases h
  · rw [strip, hs] at h
    cases h
    exact head_stripLeft (by rw [hw, hs]; rfl)

/-- A text that neither begins nor ends with a blank is left as it is. -/
theorem strip_of_ends {t : Text} (hhead : ∀ c, t.head? = some c → isBlank c = false)
    (hlast : ∀ c, t.getLast? = some c → isBlank c = false) : t.strip = t := by
  have hright : stripRight t = t := by
    rcases List.eq_nil_or_concat t with rfl | ⟨u, c, rfl⟩
    · rfl
    · have hc := hlast c (by simp)
      rw [stripRight_eq_rdropWhile, List.concat_eq_append, List.rdropWhile_concat_neg]
      simp [hc]
  rw [strip, stripLeft_of_head hhead, hright]

theorem getLast_stripRight {t : Text} {c : Char} (h : t.stripRight.getLast? = some c) :
    isBlank c = false := by
  rw [stripRight_eq_rdropWhile] at h
  obtain ⟨hne, rfl⟩ := List.mem_getLast?_eq_getLast h
  simpa using List.rdropWhile_last_not isBlank _ hne

theorem getLast_strip {t : Text} {c : Char} (h : t.strip.getLast? = some c) : isBlank c = false :=
  getLast_stripRight h

theorem strip_strip (t : Text) : t.strip.strip = t.strip :=
  strip_of_ends (fun _ => head_strip) fun _ => getLast_strip

theorem length_strip_le (t : Text) : t.strip.length ≤ t.length := by
  have hright : t.strip.length ≤ (stripLeft t).length := by
    rw [strip, stripRight_eq_rdropWhile]
    exact (List.rdropWhile_prefix _ _).length_le
  exact hright.trans (List.dropWhile_sublist _).length_le

/-! ## Blanks around a text -/

theorem stripLeft_append_cons {c : Char} (hc : isBlank c = false) (t u : Text) :
    stripLeft (t ++ c :: u) = stripLeft t ++ c :: u := by
  induction t with
  | nil => exact stripLeft_of_head (by simpa using hc)
  | cons d t ih =>
    by_cases hd : isBlank d = true
    · rw [List.cons_append, stripLeft, List.dropWhile_cons_of_pos hd, stripLeft,
        List.dropWhile_cons_of_pos hd, ← stripLeft, ih, ← stripLeft]
    · have hhead : ∀ {v : Text}, stripLeft (d :: v) = d :: v :=
        stripLeft_of_head (by simpa using hd)
      rw [List.cons_append, hhead, hhead, List.cons_append]

theorem stripRight_append_cons {c : Char} (hc : isBlank c = false) (t u : Text) :
    stripRight (t ++ c :: u) = t ++ c :: stripRight u := by
  have hreverse : (t ++ c :: u).reverse = u.reverse ++ c :: t.reverse := by simp
  rw [stripRight, hreverse, ← stripLeft, stripLeft_append_cons hc, stripRight, ← stripLeft]
  simp

/-- The blanks around a text with a character in it that is none are those before and after it. -/
theorem strip_append_cons {c : Char} (hc : isBlank c = false) (t u : Text) :
    (t ++ c :: u).strip = stripLeft t ++ c :: stripRight u := by
  rw [strip, stripLeft_append_cons hc, stripRight_append_cons hc]

theorem stripLeft_append {l : Text} (hl : ∀ c ∈ l, isBlank c = true) (t : Text) :
    stripLeft (l ++ t) = stripLeft t :=
  List.dropWhile_append_of_pos hl

theorem stripRight_append {r : Text} (hr : ∀ c ∈ r, isBlank c = true) (t : Text) :
    stripRight (t ++ r) = stripRight t := by
  rw [stripRight, List.reverse_append, List.dropWhile_append_of_pos (by simpa using hr), ← stripRight]

/-- Blanks around a text make no difference to what stripping leaves of it. -/
theorem strip_padded {l r : Text} (hl : ∀ c ∈ l, isBlank c = true) (hr : ∀ c ∈ r, isBlank c = true)
    (t : Text) : (l ++ (t ++ r)).strip = t.strip := by
  rw [strip, stripLeft_append hl]
  by_cases ht : ∀ c ∈ t, isBlank c = true
  · have hblank : ∀ c ∈ t ++ r, isBlank c = true := by
      simpa [or_imp, forall_and] using ⟨ht, hr⟩
    rw [stripLeft, List.dropWhile_eq_nil_iff.2 hblank, strip, stripLeft, List.dropWhile_eq_nil_iff.2 ht]
  · push Not at ht
    obtain ⟨c, hc, hnot⟩ := ht
    obtain ⟨a, b, rfl⟩ := List.append_of_mem hc
    have hnot : isBlank c = false := by simpa using hnot
    rw [List.append_assoc, List.cons_append, stripLeft_append_cons hnot, stripRight_append_cons hnot,
      stripRight_append hr, strip_append_cons hnot]

@[simp] theorem strip_stripLeft (t : Text) : (stripLeft t).strip = t.strip := by
  rw [strip, stripLeft_of_head fun _ => head_stripLeft, strip]

@[simp] theorem strip_stripRight (t : Text) : (stripRight t).strip = t.strip := by
  obtain ⟨w, ht, hw⟩ := exists_blanks t
  have hpadded := strip_padded (l := []) (by simp) hw (stripRight t)
  rw [List.nil_append, ← ht] at hpadded
  exact hpadded.symm

end InsecureLinks.Text
