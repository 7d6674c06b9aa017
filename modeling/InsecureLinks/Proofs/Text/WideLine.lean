import Mathlib
import InsecureLinks.Text.LineBreak

/-!
# The lines of a whitelist

No line of a whitelist has a break in it (`not_isWideBreak_of_mem_wideLines`).  A text is cut after a
line that stands before it (`betweenWideBreaks_line`) and before a line that is added to it
(`wideLines_append`), except that a carriage return and a line feed which come together are one
break; the line between the two, which is gone then, was empty.
-/

namespace InsecureLinks.Text

theorem betweenWideBreaks_crlf (t : Text) :
    betweenWideBreaks ('\r' :: '\n' :: t) = [] :: betweenWideBreaks t := rfl

theorem betweenWideBreaks_cons {c : Char} {t : Text}
    (hcrlf : ∀ t', c = '\r' → t = '\n' :: t' → False) :
    betweenWideBreaks (c :: t) =
      if isWideBreak c then [] :: betweenWideBreaks t
      else match betweenWideBreaks t with
        | [] => [[c]]
        | l :: ls => (c :: l) :: ls := betweenWideBreaks.eq_3 _ _ hcrlf

theorem not_isWideBreak_of_mem_betweenWideBreaks {t l : Text} {c : Char}
    (h : l ∈ betweenWideBreaks t) (hc : c ∈ l) : isWideBreak c = false := by
  induction t using betweenWideBreaks.induct generalizing l with
  | case1 =>
    rw [List.mem_singleton.1 h] at hc
    cases hc
  | case2 t ih =>
    rw [betweenWideBreaks_crlf] at h
    rcases List.mem_cons.1 h with rfl | h
    · cases hc
    · exact ih h hc
  | case3 d t hcrlf hbreak ih =>
    rw [betweenWideBreaks_cons hcrlf, if_pos hbreak] at h
    rcases List.mem_cons.1 h with rfl | h
    · cases hc
    · exact ih h hc
  | case4 d t hcrlf hbreak hrest ih =>
    rw [betweenWideBreaks_cons hcrlf, if_neg hbreak, hrest] at h
    rw [List.mem_singleton.1 h, List.mem_singleton] at hc
    rw [hc]
    simpa using hbreak
  | case5 d t hcrlf hbreak first rest hrest ih =>
    rw [betweenWideBreaks_cons hcrlf, if_neg hbreak, hrest] at h
    rw [hrest] at ih
    rcases List.mem_cons.1 h with rfl | h
    · rcases List.mem_cons.1 hc with rfl | hc
      · simpa using hbreak
      · exact ih (List.mem_cons_self ..) hc
    · exact ih (List.mem_cons_of_mem _ h) hc

theorem mem_of_mem_dropEmptyLast {l : Text} {ls : List Text} (h : l ∈ dropEmptyLast ls) : l ∈ ls := by
  induction ls using dropEmptyLast.induct with
  | case1 => exact h
  | case2 m hempty =>
    rw [dropEmptyLast, if_pos hempty] at h
    cases h
  | case3 m hempty => rwa [dropEmptyLast, if_neg hempty] at h
  | case4 m k ls ih =>
    rw [dropEmptyLast] at h
    rcases List.mem_cons.1 h with rfl | h
    · exact List.mem_cons_self ..
    · exact List.mem_cons_of_mem _ (ih h)

/-- No line of a whitelist has a break in it. -/
theorem not_isWideBreak_of_mem_wideLines {t l : Text} {c : Char} (h : l ∈ wideLines t)
    (hc : c ∈ l) : isWideBreak c = false :=
  not_isWideBreak_of_mem_betweenWideBreaks (mem_of_mem_dropEmptyLast h) hc

theorem betweenWideBreaks_ne_nil (t : Text) : betweenWideBreaks t ≠ [] := by
  induction t using betweenWideBreaks.induct with
  | case1 => exact List.cons_ne_nil _ _
  | case2 t ih => exact List.cons_ne_nil _ _
  | case3 c t hcrlf hbreak ih => simp [betweenWideBreaks_cons hcrlf, hbreak]
  | case4 c t hcrlf hbreak hrest ih => exact absurd hrest ih
  | case5 c t hcrlf hbreak first rest hrest ih =>
    simp [betweenWideBreaks_cons hcrlf, hbreak, hrest]

theorem betweenWideBreaks_of_no_break {u : Text} (h : ∀ c ∈ u, isWideBreak c = false) :
    betweenWideBreaks u = [u] := by
  induction u with
  | nil => rfl
  | cons c u ih =>
    obtain ⟨hc, hu⟩ := List.forall_mem_cons.1 h
    have hcrlf : ∀ t, c = '\r' → u = '\n' :: t → False := by
      rintro t rfl -
      cases hc
    rw [betweenWideBreaks_cons hcrlf, if_neg (by simp [hc]), ih hu]

/-! ## A line before a text -/

/-- Whether a text ends a line: it is one of the breaks, or a carriage return with a line feed. -/
def IsBreak (b : Text) : Prop := b = ['\r', '\n'] ∨ ∃ c, b = [c] ∧ isWideBreak c = true

theorem betweenWideBreaks_break {b : Text} (hb : IsBreak b) (t : Text) :
    ∃ ls, betweenWideBreaks (b ++ t) = [] :: ls ∧
      (betweenWideBreaks t = ls ∨ betweenWideBreaks t = [] :: ls) := by
  rcases hb with rfl | ⟨c, rfl, hc⟩
  · exact ⟨_, rfl, .inl rfl⟩
  · by_cases hcrlf : c = '\r' ∧ t.head? = some '\n'
    · obtain ⟨rfl, hhead⟩ := hcrlf
      obtain ⟨t, rfl⟩ := List.head?_eq_some_iff.1 hhead
      refine ⟨betweenWideBreaks t, rfl, .inr ?_⟩
      rw [betweenWideBreaks_cons (by simp), if_pos (by decide)]
    · refine ⟨betweenWideBreaks t, ?_, .inl rfl⟩
      refine (betweenWideBreaks_cons ?_).trans (if_pos hc)
      rintro t' rfl rfl
      exact hcrlf ⟨rfl, rfl⟩

theorem betweenWideBreaks_line {line b : Text} (hline : ∀ c ∈ line, isWideBreak c = false)
    (hb : IsBreak b) (t : Text) :
    ∃ ls, betweenWideBreaks (line ++ (b ++ t)) = line :: ls ∧
      (betweenWideBreaks t = ls ∨ betweenWideBreaks t = [] :: ls) := by
  induction line with
  | nil => exact betweenWideBreaks_break hb t
  | cons c line ih =>
    obtain ⟨hc, hline⟩ := List.forall_mem_cons.1 hline
    obtain ⟨ls, hls, ht⟩ := ih hline
    refine ⟨ls, ?_, ht⟩
    have hcrlf : ∀ t', c = '\r' → line ++ (b ++ t) = '\n' :: t' → False := by
      rintro t' rfl -
      cases hc
    rw [List.cons_append, betweenWideBreaks_cons hcrlf, if_neg (by simp [hc]), hls]

/-! ## A line after a text -/

/-- A text after a line feed is between breaks by itself.  What is before it is as it was, except that
there is no empty text between a carriage return at the end and the line feed. -/
theorem betweenWideBreaks_append {u : Text} (hu : ∀ c ∈ u, isWideBreak c = false) (t : Text) :
    ∃ ls, ls ≠ [] ∧ betweenWideBreaks (t ++ '\n' :: u) = ls ++ [u] ∧
      (betweenWideBreaks t = ls ∨ betweenWideBreaks t = ls ++ [[]]) := by
  have hfeed : betweenWideBreaks ('\n' :: u) = [[], u] := by
    rw [betweenWideBreaks_cons (by simp), if_pos (by decide), betweenWideBreaks_of_no_break hu]
  induction t using betweenWideBreaks.induct with
  | case1 => exact ⟨[[]], by simp, hfeed, .inl rfl⟩
  | case2 t ih =>
    obtain ⟨ls, -, happend, ht⟩ := ih
    refine ⟨[] :: ls, by simp, congrArg ([] :: ·) happend, ?_⟩
    simpa [betweenWideBreaks_crlf] using ht
  | case3 c t hcrlf hbreak ih =>
    -- A carriage return that ended the text makes one break with the line feed, and the empty text
    -- that was after it is gone.
    by_cases hcr : c = '\r' ∧ t = []
    · obtain ⟨rfl, rfl⟩ := hcr
      refine ⟨[[]], by simp, ?_, .inr (by decide)⟩
      rw [List.cons_append, List.nil_append, betweenWideBreaks_crlf,
        betweenWideBreaks_of_no_break hu]
      rfl
    · have hcrlf' : ∀ t', c = '\r' → t ++ '\n' :: u = '\n' :: t' → False := by
        intro t' hc ht'
        rcases t with _ | ⟨d, t⟩
        · exact hcr ⟨hc, rfl⟩
        · obtain ⟨rfl, -⟩ := List.cons.inj ht'
          exact hcrlf t hc rfl
      obtain ⟨ls, -, happend, ht⟩ := ih
      rw [List.cons_append, betweenWideBreaks_cons hcrlf', betweenWideBreaks_cons hcrlf,
        if_pos hbreak, if_pos hbreak, happend]
      exact ⟨[] :: ls, by simp, rfl, by simpa using ht⟩
  | case4 c t hcrlf hbreak hrest ih => exact absurd hrest (betweenWideBreaks_ne_nil t)
  | case5 c t hcrlf hbreak first rest hrest ih =>
    have hcrlf' : ∀ t', c = '\r' → t ++ '\n' :: u = '\n' :: t' → False := by
      rintro t' rfl -
      exact hbreak rfl
    obtain ⟨ls, hne, happend, ht⟩ := ih
    obtain ⟨l, ls, rfl⟩ := List.exists_cons_of_ne_nil hne
    rw [hrest] at ht
    rw [List.cons_append, betweenWideBreaks_cons hcrlf', betweenWideBreaks_cons hcrlf,
      if_neg hbreak, if_neg hbreak, happend, hrest]
    exact ⟨(c :: l) :: ls, by simp, rfl, by simpa using ht⟩

theorem dropEmptyLast_concat (ls : List Text) (l : Text) :
    dropEmptyLast (ls ++ [l]) = ls ++ if l.isEmpty then [] else [l] := by
  induction ls using dropEmptyLast.induct with
  | case1 => rfl
  | case2 m hempty => simp [dropEmptyLast]
  | case3 m hempty => simp [dropEmptyLast]
  | case4 m k ls ih => simpa [dropEmptyLast] using ih

/-- The lines of a whitelist with a line added are the lines that it had and the line, with maybe an
empty line between them. -/
theorem wideLines_append {u : Text} (hne : u ≠ []) (hu : ∀ c ∈ u, isWideBreak c = false)
    (t : Text) : ∃ gap, (∀ l ∈ gap, l = []) ∧
      wideLines (t ++ '\n' :: u) = wideLines t ++ (gap ++ [u]) := by
  obtain ⟨ls, hls, happend, ht⟩ := betweenWideBreaks_append hu t
  have hlines : wideLines (t ++ '\n' :: u) = ls ++ [u] := by
    rw [wideLines, happend, dropEmptyLast_concat, if_neg (by simpa using hne)]
  rw [hlines]
  rcases ht with ht | ht
  · obtain ⟨ls, l, rfl⟩ := (List.eq_nil_or_concat' ls).resolve_left hls
    rw [wideLines, ht, dropEmptyLast_concat]
    by_cases hl : l = []
    · exact ⟨[[]], by simp, by simp [hl]⟩
    · exact ⟨[], by simp, by simp [hl]⟩
  · exact ⟨[], by simp, by simp [wideLines, ht, dropEmptyLast_concat]⟩

end InsecureLinks.Text
