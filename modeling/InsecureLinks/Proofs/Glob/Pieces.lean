import Mathlib
import InsecureLinks.Glob.Match
import InsecureLinks.Proofs.Text.Blank

/-!
# Pieces of a pattern

How the pieces of a pattern follow from its first characters, and two consequences.  A pattern
without brackets can always be read (`exists_parse_of_noClass`), which is the case for the patterns
of a target that are always excluded.  And the pieces of a pattern with a text after it are those
of both, but for one place where they may grow together (`cutPieces_append`).
-/

namespace InsecureLinks.Glob

/-! ## How a pattern begins -/

section Pieces

variable {t : Text}

attribute [local simp] cutPieces

theorem cutPieces_folders (t : Text) :
    cutPieces ('*' :: '*' :: '/' :: t) = .folders :: cutPieces t := by
  simp

theorem cutPieces_anything (h : t.head? ≠ some '/') :
    cutPieces ('*' :: '*' :: t) = .anything :: cutPieces t := by
  refine cutPieces.eq_3 t ?_
  rintro u rfl
  simp at h

theorem cutPieces_segment (h : t.head? ≠ some '*') :
    cutPieces ('*' :: t) = .segment :: cutPieces t := by
  refine cutPieces.eq_4 t ?_ ?_
  · rintro u rfl
    simp at h
  · rintro u rfl
    simp at h

theorem cutPieces_set {body rest : Text} (h : cutClass? t = some (body, rest)) :
    cutPieces ('[' :: t) = .set body :: cutPieces rest := by
  rw [cutPieces.eq_6]
  split
  · next h' =>
    rw [h] at h'
    cases h'
    rfl
  · next h' =>
    rw [h] at h'
    cases h'

theorem cutPieces_bracket (h : cutClass? t = none) :
    cutPieces ('[' :: t) = .literal '[' :: cutPieces t := by
  rw [cutPieces.eq_6]
  split
  · next h' =>
    rw [h] at h'
    cases h'
  · rfl

theorem cutPieces_literal {c : Char} (t : Text) (hstar : c ≠ '*') (hmark : c ≠ '?')
    (hbracket : c ≠ '[') : cutPieces (c :: t) = .literal c :: cutPieces t :=
  cutPieces.eq_7 c t (fun _ h _ => hstar h) (fun _ h _ => hstar h) hstar hmark hbracket

end Pieces

/-! ## Patterns without classes -/

theorem exists_tokens_of_noClass {t : Text} (h : '[' ∉ t) :
    ∃ ts, tokens (cutPieces t) = .ok ts := by
  have exists_map {x : Except Error (List Token)} (hx : ∃ ts, x = .ok ts) (k : Token) :
      ∃ ts, x.map (k :: ·) = .ok ts := by
    obtain ⟨ts, rfl⟩ := hx
    exact ⟨_, rfl⟩
  induction t using cutPieces.induct with
  | case1 => exact ⟨[], by rw [cutPieces, tokens]⟩
  | case2 t ih =>
    rw [cutPieces_folders, tokens]
    exact exists_map (ih (by simpa using h)) _
  | case3 t ht ih =>
    rw [cutPieces.eq_3 t ht, tokens]
    exact exists_map (ih (by simpa using h)) _
  | case4 t ht ht' ih =>
    rw [cutPieces.eq_4 t ht ht', tokens]
    exact exists_map (ih (by simpa using h)) _
  | case5 t ih =>
    rw [cutPieces, tokens]
    exact exists_map (ih (by simpa using h)) _
  | case6 t | case7 t => simp at h
  | case8 c t _ _ hstar hmark hbracket ih =>
    rw [cutPieces_literal t hstar hmark hbracket, tokens]
    exact exists_map (ih (fun hmem => h (List.mem_cons_of_mem _ hmem))) _

theorem not_mem_dropHere {c : Char} {t : Text} (h : c ∉ t) : c ∉ dropHere t := by
  induction t using dropHere.induct with
  | case1 t ih =>
    rw [dropHere]
    exact ih fun hmem => h (List.mem_cons_of_mem _ (List.mem_cons_of_mem _ hmem))
  | case2 t ht => rwa [dropHere.eq_2 t ht]

/-- A pattern without an opening bracket can be read. -/
theorem exists_parse_of_noClass {p : Text} (h : '[' ∉ p) : ∃ ts, parse p = .ok ts := by
  refine exists_tokens_of_noClass (not_mem_dropHere fun hmem => ?_)
  obtain ⟨c, hc, hreplaced⟩ := List.mem_map.1 hmem
  split at hreplaced
  · cases hreplaced
  · exact h (hreplaced ▸ p.strip_subset hc)

/-! ## Pieces of a longer pattern -/

theorem cutFirst?_of_not_mem {sep : Char} {t : Text} (h : sep ∉ t) :
    Text.cutFirst? sep t = none := by
  induction t with
  | nil => rfl
  | cons c t ih =>
    simp only [List.mem_cons, not_or] at h
    rw [Text.cutFirst?, if_neg (Ne.symm h.1), ih h.2]
    rfl

theorem cutFirst?_append {sep : Char} (t : Text) {v : Text} (h : sep ∉ v) :
    Text.cutFirst? sep (t ++ v) = (Text.cutFirst? sep t).map fun (a, b) => (a, b ++ v) := by
  induction t with
  | nil => simp [cutFirst?_of_not_mem h, Text.cutFirst?]
  | cons c t ih =>
    rw [List.cons_append, Text.cutFirst?, Text.cutFirst?]
    split
    · rfl
    · rw [ih, Option.map_map, Option.map_map]
      rfl

theorem cutClass?_append (t : Text) {v : Text} (h : ']' ∉ v) :
    cutClass? (t ++ v) = (cutClass? t).map fun (body, rest) => (body, rest ++ v) := by
  rw [cutClass?, cutClass?, cutFirst?_append t h]
  rcases Text.cutFirst? ']' t with _ | ⟨_ | ⟨b, body⟩, rest⟩
  · rfl
  · rfl
  · rfl

/-- How the pieces of `u ++ v` arise from those of `u` and `v`: one after another, unless a `**` at
the end of `u` and a slash at the start of `v` are one piece. -/
def PiecesJoin (u v : Text) : Prop :=
  cutPieces (u ++ v) = cutPieces u ++ cutPieces v ∨
    ∃ before rest, v = '/' :: rest ∧ cutPieces u = before ++ [.anything] ∧
      cutPieces (u ++ v) = before ++ .folders :: cutPieces rest

theorem PiecesJoin.cons {u u' v : Text} {p : Piece} (h : PiecesJoin u v)
    (hu : cutPieces u' = p :: cutPieces u) (huv : cutPieces (u' ++ v) = p :: cutPieces (u ++ v)) :
    PiecesJoin u' v := by
  rcases h with h | ⟨before, rest, hv, hbefore, h⟩
  · exact .inl (by rw [huv, h, hu, List.cons_append])
  · exact .inr ⟨p :: before, rest, hv, by rw [hu, hbefore, List.cons_append],
      by rw [huv, h, List.cons_append]⟩

theorem head_append_ne {t v : Text} {c : Char} (ht : t.head? ≠ some c) (hv : v.head? ≠ some c) :
    (t ++ v).head? ≠ some c := by
  rcases t with _ | ⟨d, t⟩
  · exact hv
  · exact ht

/-- No class of `u` can end in `v`, so `v` matters to the pieces of `u` only by its first
character. -/
theorem cutPieces_append (u : Text) {v : Text} (hclass : ']' ∉ v) (hstar : v.head? ≠ some '*') :
    PiecesJoin u v := by
  induction u using cutPieces.induct with
  | case1 => exact .inl (by simp [cutPieces])
  | case2 t ih => exact ih.cons (cutPieces_folders t) (cutPieces_folders _)
  | case3 t ht ih =>
    have hslash : t.head? ≠ some '/' := by
      rcases t with _ | ⟨c, t⟩
      · simp
      · rintro ⟨⟩
        exact ht t rfl
    rcases t with _ | ⟨c, t⟩
    · rcases v with _ | ⟨d, v⟩
      · exact .inl (by simp [cutPieces])
      by_cases hd : d = '/'
      · subst hd
        exact .inr ⟨[], v, rfl, by simp [cutPieces], cutPieces_folders v⟩
      · refine .inl ?_
        rw [cutPieces_anything (t := []) (by simp), cutPieces.eq_1]
        exact cutPieces_anything (t := d :: v) (by simpa using hd)
    · exact ih.cons (cutPieces_anything hslash) (cutPieces_anything hslash)
  | case4 t _ ht ih =>
    have hhead : t.head? ≠ some '*' := by
      rcases t with _ | ⟨c, t⟩
      · simp
      · rintro ⟨⟩
        exact ht t rfl
    exact ih.cons (cutPieces_segment hhead) (cutPieces_segment (head_append_ne hhead hstar))
  | case5 t ih => exact ih.cons (cutPieces.eq_5 t) (cutPieces.eq_5 _)
  | case6 t body rest h _ ih =>
    refine ih.cons (cutPieces_set h) (cutPieces_set (t := t ++ v) ?_)
    rw [cutClass?_append t hclass, h]
    rfl
  | case7 t h ih =>
    refine ih.cons (cutPieces_bracket h) (cutPieces_bracket (t := t ++ v) ?_)
    rw [cutClass?_append t hclass, h]
    rfl
  | case8 c t _ _ hs hm hb ih =>
    exact ih.cons (cutPieces_literal t hs hm hb) (cutPieces_literal _ hs hm hb)

end InsecureLinks.Glob
