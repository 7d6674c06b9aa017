import Mathlib
import InsecureLinks.Proofs.Text.Line
import InsecureLinks.Proofs.Text.Occurrence
import InsecureLinks.Replace

/-!
# Securing a line

`secured` is a text with every link in it made secure.  Replacing works on one column after another
instead, from the last to the first, and on a line that may have its terminator.  The columns at
which the link stands give the same text (`secureColumns_starts`): what is changed further right
stays clear of what is still to be changed.
-/

namespace InsecureLinks

/-- A text with every link in it made secure. -/
def secured : Text → Text
  | [] => []
  | c :: t =>
    if insecure <+: c :: t then secure ++ secured (t.drop 6) else c :: secured t
termination_by t => t.length
decreasing_by all_goals simp only [List.length_cons, List.length_drop]; omega

theorem secured_cons_of_absent {c : Char} {t : Text} (h : ¬insecure <+: c :: t) :
    secured (c :: t) = c :: secured t := by
  rw [secured, if_neg h]

theorem secured_of_ne {c : Char} (h : c ≠ 'h') (t : Text) : secured (c :: t) = c :: secured t := by
  refine secured_cons_of_absent fun hprefix => ?_
  obtain ⟨u, hu⟩ := hprefix
  exact h (List.cons.inj hu).1.symm

theorem secured_insecure_append (t : Text) : secured (insecure ++ t) = secure ++ secured t := by
  rw [insecure, List.cons_append, secured, if_pos ⟨t, rfl⟩]
  rfl

/-- A text without links is left as it is. -/
theorem secured_of_starts_eq_nil {t : Text} (h : Text.starts insecure t = []) : secured t = t := by
  induction t with
  | nil => rw [secured]
  | cons c t ih =>
    rw [Text.starts_cons, List.append_eq_nil_iff, List.map_eq_nil_iff] at h
    obtain ⟨hhead, htail⟩ := h
    have hprefix : ¬insecure <+: c :: t := by
      rw [← List.isPrefixOf_iff_prefix]
      intro hprefix
      rw [if_pos hprefix] at hhead
      cases hhead
    rw [secured_cons_of_absent hprefix, ih htail]

/-- What begins in a secured text without the first letter of a link was there before. -/
theorem prefix_of_prefix_secured {w t : Text} (hw : 'h' ∉ w) (h : w <+: secured t) : w <+: t := by
  induction w generalizing t with
  | nil => exact List.nil_prefix
  | cons d w ih =>
    obtain ⟨hd, hw⟩ : 'h' ≠ d ∧ 'h' ∉ w := by simpa using hw
    rcases t with _ | ⟨c, t⟩
    · rwa [secured] at h
    · by_cases hprefix : insecure <+: c :: t
      · rw [secured, if_pos hprefix] at h
        exact absurd (List.cons_prefix_cons.1 h).1.symm hd
      · rw [secured_cons_of_absent hprefix] at h
        obtain ⟨rfl, htail⟩ := List.cons_prefix_cons.1 h
        exact List.cons_prefix_cons.2 ⟨rfl, ih hw htail⟩

/-- No link is left in a secured text, and none has come into being. -/
theorem starts_secured (t : Text) : Text.starts insecure (secured t) = [] := by
  fun_induction secured t with
  | case1 => rfl
  | case2 c t hprefix ih =>
    -- The letter that is put in stands in the way of a link, and no other begins one.
    simp only [secure, insecure] at ih ⊢
    simp [Text.starts_cons, ih]
  | case3 c t hprefix ih =>
    rw [Text.starts_cons, ih, if_neg, List.map_nil, List.append_nil]
    rw [List.isPrefixOf_iff_prefix]
    intro hprefix'
    obtain ⟨rfl, htail⟩ := List.cons_prefix_cons.1 hprefix'
    exact hprefix (List.cons_prefix_cons.2 ⟨rfl, prefix_of_prefix_secured (by decide) htail⟩)

theorem secured_eq_nil_iff {t : Text} : secured t = [] ↔ t = [] := by
  fun_cases secured t with
  | case1 => simp
  | case2 c t hprefix => simp [secure]
  | case3 c t hprefix => simp

/-- A secured text begins as it did. -/
theorem head_secured (t : Text) : (secured t).head? = t.head? := by
  fun_cases secured t with
  | case1 => rfl
  | case2 c t hprefix =>
    obtain ⟨rfl, -⟩ := List.cons_prefix_cons.1 hprefix
    rfl
  | case3 c t hprefix => rfl

/-- Securing a line brings no line break into it. -/
theorem noBreak_secured {t : Text} (h : ∀ c ∈ t, Text.isLineBreak c = false) :
    ∀ c ∈ secured t, Text.isLineBreak c = false := by
  fun_induction secured t with
  | case1 => simp
  | case2 c t hprefix ih =>
    have hsecure : ∀ d ∈ secure, Text.isLineBreak d = false := by simp [secure, Text.isLineBreak]
    refine List.forall_mem_append.2 ⟨hsecure, ih fun d hd => h d ?_⟩
    exact List.mem_cons_of_mem _ (List.mem_of_mem_drop hd)
  | case3 c t hprefix ih =>
    obtain ⟨hc, ht⟩ := List.forall_mem_cons.1 h
    exact List.forall_mem_cons.2 ⟨hc, ih ht⟩

namespace Replace

/-! ## One column -/

theorem secureAt?_natCast (t : Text) (k : ℕ) :
    secureAt? t k =
      if (t.drop k).take 7 = insecure then some (t.take k ++ secure ++ t.drop (k + 7)) else none := by
  have hposition : ∀ n : ℕ, position t.length n = min n t.length := by
    intro n
    rw [position, if_neg (by omega)]
    simp
  have hafter : (k : ℤ) + insecure.length = ((k + 7 : ℕ) : ℤ) := by simp [insecure]
  have htake : ∀ n, t.take (min n t.length) = t.take n := by
    intro n
    rw [← List.take_take, List.take_length]
  have hdrop : ∀ n, t.drop (min n t.length) = t.drop n := by
    intro n
    rcases Nat.le_total n t.length with h | h
    · rw [Nat.min_eq_left h]
    · rw [Nat.min_eq_right h, List.drop_length, List.drop_of_length_le h]
  have hslice : slice t k ((k + 7 : ℕ) : ℤ) = (t.drop k).take 7 := by
    rw [slice, hposition, hposition, htake, List.drop_take, hdrop]
    rcases Nat.le_total k t.length with h | h
    · rw [Nat.min_eq_left h, Nat.add_sub_cancel_left]
    · rw [List.drop_of_length_le h, List.take_nil, List.take_nil]
  rw [secureAt?, hafter, hslice, hposition, hposition, htake, hdrop]

theorem secureAt?_cons (c : Char) (t : Text) (k : ℕ) :
    secureAt? (c :: t) ((k + 1 : ℕ) : ℤ) = (secureAt? t k).map (c :: ·) := by
  rw [secureAt?_natCast, secureAt?_natCast, Nat.add_right_comm, List.drop_succ_cons,
    List.drop_succ_cons, List.take_succ_cons]
  split_ifs
  · rfl
  · rfl

theorem secureAt?_append (a t : Text) :
    secureAt? (a ++ insecure ++ t) (a.length : ℤ) = some (a ++ secure ++ t) := by
  have hlink : ((a ++ insecure ++ t).drop a.length).take 7 = insecure := by
    rw [List.append_assoc, List.drop_left]
    rfl
  have hafter : (a ++ insecure ++ t).drop (a.length + 7) = t :=
    List.drop_left' (by simp [insecure])
  rw [secureAt?_natCast, if_pos hlink, hafter, List.append_assoc a insecure, List.take_left]

theorem secureAt?_zero (t : Text) : secureAt? (insecure ++ t) ((0 : ℕ) : ℤ) = some (secure ++ t) :=
  secureAt?_append [] t

theorem secureAt?_of_absent {t : Text} {k : ℕ} (h : ¬insecure <+: t.drop k) :
    secureAt? t k = none := by
  rw [secureAt?_natCast, if_neg]
  intro htake
  exact h (htake ▸ List.take_prefix 7 (t.drop k))

/-! ## Several columns -/

theorem secureColumns_append (t : Text) (xs ys : List ℤ) :
    secureColumns t (xs ++ ys) =
      ((secureColumns (secureColumns t xs).1 ys).1,
        (secureColumns t xs).2 + (secureColumns (secureColumns t xs).1 ys).2) := by
  induction xs generalizing t with
  | nil => simp [secureColumns]
  | cons x xs ih =>
    rw [List.cons_append, secureColumns, secureColumns]
    rcases secureAt? t x with _ | u
    · exact ih t
    · simp only [ih]
      rw [Nat.add_right_comm]

theorem secureColumns_cons (c : Char) (t : Text) (ks : List ℕ) :
    secureColumns (c :: t) (ks.map fun (k : ℕ) => ((k + 1 : ℕ) : ℤ)) =
      (c :: (secureColumns t (ks.map fun (k : ℕ) => (k : ℤ))).1,
        (secureColumns t (ks.map fun (k : ℕ) => (k : ℤ))).2) := by
  induction ks generalizing t with
  | nil => rfl
  | cons k ks ih =>
    rw [List.map_cons, List.map_cons, secureColumns, secureColumns, secureAt?_cons]
    rcases secureAt? t k with _ | u
    · exact ih t
    · simp only [Option.map_some, ih]

/-- Securing a line at all columns of its links, from right to left, makes every link secure, and
what comes after the line is left as it is. -/
theorem secureColumns_starts (line rest : Text) :
    secureColumns (line ++ rest) ((Text.starts insecure line).reverse.map fun (k : ℕ) => (k : ℤ)) =
      (secured line ++ rest, (Text.starts insecure line).length) := by
  induction line with
  | nil =>
    rw [secured]
    rfl
  | cons c t ih =>
    have hlater : ((Text.starts insecure t).map (· + 1)).reverse.map (fun (k : ℕ) => (k : ℤ)) =
        (Text.starts insecure t).reverse.map fun (k : ℕ) => ((k + 1 : ℕ) : ℤ) := by
      rw [← List.map_reverse, List.map_map]
      rfl
    rw [Text.starts_cons, List.reverse_append, List.map_append, hlater, secureColumns_append,
      List.cons_append, secureColumns_cons, ih, List.length_append, List.length_map]
    by_cases hprefix : insecure <+: c :: t
    · -- The first link reaches as far as no change further right does.
      have hfirst : insecure.isPrefixOf (c :: t) = true := List.isPrefixOf_iff_prefix.2 hprefix
      obtain ⟨u, hu⟩ := hprefix
      obtain ⟨rfl, rfl⟩ : 'h' = c ∧ ['t', 't', 'p', ':', '/', '/'] ++ u = t := List.cons.inj hu
      have hrest : secured (['t', 't', 'p', ':', '/', '/'] ++ u) =
          ['t', 't', 'p', ':', '/', '/'] ++ secured u := by
        simp [secured_of_ne]
      have hwhole : secured ('h' :: (['t', 't', 'p', ':', '/', '/'] ++ u)) = secure ++ secured u :=
        secured_insecure_append u
      have hsecure := secureAt?_zero (secured u ++ rest)
      rw [if_pos hfirst, hrest, hwhole, List.reverse_singleton, List.map_singleton, secureColumns]
      change secureAt? ('h' :: (['t', 't', 'p', ':', '/', '/'] ++ secured u ++ rest)) _ = _ at hsecure
      simp only [hsecure, secureColumns, List.length_singleton]
      rw [Nat.add_comm, List.append_assoc]
    · rw [if_neg (by rwa [List.isPrefixOf_iff_prefix]), secured_cons_of_absent hprefix]
      simp [secureColumns]

/-! ## Columns that are out of date -/

/-- A text in which no link stands is left as it is at any columns. -/
theorem secureColumns_of_absent {t : Text} (h : ∀ k, ¬insecure <+: t.drop k) (ks : List ℕ) :
    secureColumns t (ks.map fun (k : ℕ) => (k : ℤ)) = (t, 0) := by
  induction ks with
  | nil => rfl
  | cons k ks ih =>
    rw [List.map_cons, secureColumns, secureAt?_of_absent (h k)]
    exact ih

/-- A link does not reach into what ends a line. -/
theorem insecure_prefix_append {l e : Text} (he : ∀ c ∈ e, Text.isLineBreak c = true)
    (h : insecure <+: l ++ e) : insecure <+: l := by
  have htake : insecure = l.take 7 ++ e.take (7 - l.length) := by
    rw [← List.take_append]
    exact List.prefix_iff_eq_take.1 h
  have hend : e.take (7 - l.length) = [] := by
    refine List.eq_nil_iff_forall_not_mem.2 fun c hc => ?_
    have hbreak := he c (List.mem_of_mem_take hc)
    have hmem : c ∈ insecure := by
      rw [htake]
      exact List.mem_append_right _ hc
    have hnone : ∀ d ∈ insecure, Text.isLineBreak d = false := by simp [insecure, Text.isLineBreak]
    rw [hnone c hmem] at hbreak
    cases hbreak
  rw [hend, List.append_nil] at htake
  rw [htake]
  exact List.take_prefix 7 l

/-- Columns at which links stood before a line was secured do nothing to it any more. -/
theorem secureColumns_secured {l e : Text} (he : ∀ c ∈ e, Text.isLineBreak c = true) (ks : List ℕ) :
    secureColumns (secured l ++ e) (ks.map fun (k : ℕ) => (k : ℤ)) =
      (secured l ++ e, 0) := by
  refine secureColumns_of_absent (fun k hk => ?_) ks
  rw [List.drop_append] at hk
  have hk := insecure_prefix_append (fun c hc => he c (List.mem_of_mem_drop hc)) hk
  have hlt : k < (secured l).length := by
    by_contra hlong
    rw [List.drop_eq_nil_of_le (not_lt.1 hlong)] at hk
    simp [insecure] at hk
  have hmem := Text.mem_starts.2 ⟨hlt, hk⟩
  rw [starts_secured] at hmem
  cases hmem

end Replace

end InsecureLinks
