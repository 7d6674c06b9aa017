import Mathlib
import InsecureLinks.Proofs.Text.Recut

/-!
# Pieces by search

A piece is a line with its terminator, or what is left without one.  It can be looked for at the
beginning of a text by trial (`candidates`): a run of characters that break no line, as long as
possible, with a terminator behind it; if there is none, shorter runs; and if that fails as well, a
run by itself.  Taking the first that fits, again and again, cuts a text (`PieceSearch`), and
`Text.pieces` is that cut (`pieceSearch_iff`).

Without their terminators the pieces are the lines of the text (`pieces_without_terminators`).
-/

namespace InsecureLinks.Text

/-- What ends a line, `CR LF` before `CR`. -/
def terminators : List Text := [['\r', '\n'], ['\r'], ['\n']]

/-- How many characters at the beginning of a text break no line. -/
def runLength (t : Text) : ℕ := (t.takeWhile fun c => !isLineBreak c).length

/-- The beginnings of a text that are pieces, in the order in which they are tried. -/
def candidates (t : Text) : List Text :=
  ((List.range (runLength t + 1)).reverse.flatMap fun n =>
      (terminators.filter fun e => e.isPrefixOf (t.drop n)).map fun e => t.take n ++ e) ++
    (List.range (runLength t)).reverse.map fun n => t.take (n + 1)

/-- Whether a search finds these pieces, one behind the other.  Where no piece begins, a character is
passed over. -/
inductive PieceSearch : Text → List Text → Prop
  | stop : PieceSearch [] []
  | skip {c : Char} {t : Text} {ps : List Text} (absent : (candidates (c :: t)).head? = none)
      (rest : PieceSearch t ps) : PieceSearch (c :: t) ps
  | next {t p : Text} {ps : List Text} (first : (candidates t).head? = some p) (ne_nil : p ≠ [])
      (rest : PieceSearch (t.drop p.length) ps) : PieceSearch t (p :: ps)

/-- `p` without the terminator at its end, if there is one. -/
def dropTerminator (p : Text) : Text :=
  match terminators.find? fun e => e.isSuffixOf p with
  | some e => p.take (p.length - e.length)
  | none => p

/-- Whether a text is a line with its terminator. -/
def IsTerminated (p : Text) : Prop :=
  ∃ l, ∃ e ∈ terminators, (∀ c ∈ l, isLineBreak c = false) ∧ p = l ++ e

variable {l e t u : Text} {ps : List Text}

/-! ## Searches -/

theorem candidates_nil : candidates [] = [] := by decide

/-- Searches in the same text find the same. -/
theorem PieceSearch.unique {qs : List Text} (h : PieceSearch t ps) (h' : PieceSearch t qs) :
    ps = qs := by
  induction h generalizing qs with
  | stop =>
    cases h' with
    | stop => rfl
    | next first => simp [candidates_nil] at first
  | skip absent rest ih =>
    cases h' with
    | skip _ rest' => exact ih rest'
    | next first => simp [absent] at first
  | next first ne_nil rest ih =>
    cases h' with
    | stop => simp [candidates_nil] at first
    | skip absent => simp [absent] at first
    | next first' _ rest' =>
      obtain rfl := Option.some.inj (first.symm.trans first')
      rw [ih rest']

/-! ## What is tried first -/

/-- The run before a terminator, or before the end, is the line. -/
theorem runLength_append (hl : ∀ c ∈ l, isLineBreak c = false)
    (hu : ∀ c ∈ u.head?, isLineBreak c = true) : runLength (l ++ u) = l.length := by
  have hstop : u.takeWhile (fun c => !isLineBreak c) = [] := by
    cases u with
    | nil => rfl
    | cons c u => simp [hu c rfl]
  unfold runLength
  rw [List.takeWhile_append_of_pos (by simpa using hl), hstop, List.append_nil]

/-- A line is tried first with the first terminator that is behind it. -/
theorem head_candidates_append (hl : ∀ c ∈ l, isLineBreak c = false)
    (hu : (terminators.filter fun e => e.isPrefixOf u).head? = some e) :
    (candidates (l ++ u)).head? = some (l ++ e) := by
  obtain ⟨es, hes⟩ : ∃ es, terminators.filter (fun e => e.isPrefixOf u) = e :: es :=
    List.head?_eq_some_iff.1 hu
  have hbreak : ∀ c ∈ u.head?, isLineBreak c = true := by
    have hmem : e ∈ terminators.filter fun e => e.isPrefixOf u := hes ▸ List.mem_cons_self
    rw [List.mem_filter, List.isPrefixOf_iff_prefix] at hmem
    obtain ⟨he, v, rfl⟩ := hmem
    simp only [terminators, List.mem_cons, List.not_mem_nil, or_false] at he
    rcases he with rfl | rfl | rfl
    all_goals simp [isLineBreak]
  unfold candidates
  rw [runLength_append hl hbreak, List.range_succ, List.reverse_append, List.reverse_singleton,
    List.singleton_append, List.flatMap_cons, List.drop_left, List.take_left, hes]
  rfl

/-- A line that nothing ends is tried first as a whole once no terminator is found in it. -/
theorem head_candidates_line (hl : ∀ c ∈ l, isLineBreak c = false) (hne : l ≠ []) :
    (candidates l).head? = some l := by
  have hrun : runLength l = l.length := by
    simpa using runLength_append (u := []) hl (by simp)
  have hnone : ∀ n, terminators.filter (fun e => e.isPrefixOf (l.drop n)) = [] := by
    refine fun n => List.filter_eq_nil_iff.2 fun e he hprefix => ?_
    have hmem : ∀ c ∈ e, c ∈ l := fun c hc =>
      List.mem_of_mem_drop ((List.isPrefixOf_iff_prefix.1 hprefix).subset hc)
    simp only [terminators, List.mem_cons, List.not_mem_nil, or_false] at he
    rcases he with rfl | rfl | rfl
    · exact absurd (hl '\r' (hmem _ (by simp))) (by decide)
    · exact absurd (hl '\r' (hmem _ (by simp))) (by decide)
    · exact absurd (hl '\n' (hmem _ (by simp))) (by decide)
  obtain ⟨n, hn⟩ : ∃ n, l.length = n + 1 :=
    Nat.exists_eq_succ_of_ne_zero (mt List.length_eq_zero_iff.1 hne)
  unfold candidates
  rw [List.flatMap_eq_nil_iff.2 fun n _ => by rw [hnone, List.map_nil], List.nil_append, hrun, hn,
    List.range_succ, List.reverse_append, List.reverse_singleton, List.singleton_append,
    List.map_cons, List.head?_cons, ← hn, List.take_length]

/-- The first terminator of what follows a line in a cut. -/
theorem head_filter_terminators (he : e ∈ terminators)
    (hcr : e = ['\r'] → u.head? ≠ some '\n') :
    (terminators.filter fun e' => e'.isPrefixOf (e ++ u)).head? = some e := by
  simp only [terminators, List.mem_cons, List.not_mem_nil, or_false] at he
  rcases he with rfl | rfl | rfl
  · simp [terminators]
  · cases u with
    | nil => decide
    | cons c u =>
      have hc : '\n' ≠ c := fun h => hcr rfl (by rw [h]; rfl)
      simp [terminators, hc]
  · simp [terminators]

/-! ## Pieces -/

theorem PieceSearch.line (hl : ∀ c ∈ l, isLineBreak c = false) (he : e ∈ terminators)
    (hcr : e = ['\r'] → u.head? ≠ some '\n') (rest : PieceSearch u ps) :
    PieceSearch (l ++ (e ++ u)) ((l ++ e) :: ps) := by
  have hne : e ≠ [] := by
    rintro rfl
    simp [terminators] at he
  apply PieceSearch.next (head_candidates_append hl (head_filter_terminators he hcr))
  · simp [hne]
  · rwa [← List.append_assoc, List.drop_left]

/-- A cut of a text is what a search finds in it. -/
theorem IsCut.pieceSearch {cut : List (Text × Text)} (h : IsCut cut) :
    PieceSearch (cut.flatMap fun p => p.1 ++ p.2) (cut.map fun p => p.1 ++ p.2) := by
  induction h with
  | nil => exact .stop
  | @last l hl hne =>
    rw [List.flatMap_singleton, List.map_singleton, List.append_nil]
    apply PieceSearch.next (head_candidates_line hl hne) hne
    rw [List.drop_length]
    exact .stop
  | crlf hl hrest ih =>
    rw [List.flatMap_cons, List.map_cons, List.append_assoc]
    exact ih.line hl (by simp [terminators]) (by simp)
  | cr hl hrest hnext ih =>
    rw [List.flatMap_cons, List.map_cons, List.append_assoc]
    exact ih.line hl (by simp [terminators]) fun _ hhead => hnext (hrest.head_flatMap hhead)
  | lf hl hrest ih =>
    rw [List.flatMap_cons, List.map_cons, List.append_assoc]
    exact ih.line hl (by simp [terminators]) (by simp)

/-- The pieces of a text are what the search finds in it. -/
theorem pieceSearch_iff : PieceSearch t ps ↔ ps = pieces t := by
  have hpieces : PieceSearch t (pieces t) := by
    have hfound := (isCut_cutLines t).pieceSearch
    rw [show (cutLines t).flatMap (fun p => p.1 ++ p.2) = t from flatMap_cutLines t] at hfound
    rw [pieces_eq_map]
    exact hfound
  constructor
  · intro h
    exact h.unique hpieces
  · rintro rfl
    exact hpieces

/-! ## Terminators -/

theorem CutLine.mem_terminators {p : Text × Text} (h : CutLine p) (hne : p.2 ≠ []) :
    p.2 ∈ terminators := by
  have hterminator := h.terminator
  simp only [List.mem_cons, List.not_mem_nil, or_false] at hterminator
  simpa [terminators, hne] using hterminator

/-- A terminator behind a line does not reach into it. -/
theorem suffix_append_iff {e' : Text} (hl : ∀ c ∈ l, isLineBreak c = false)
    (he' : ∀ c ∈ e', isLineBreak c = true) : e' <:+ l ++ e ↔ e' <:+ e := by
  constructor
  · intro h
    rcases List.suffix_or_suffix_of_suffix h (List.suffix_append l e) with hshort | ⟨v, rfl⟩
    · exact hshort
    · -- What there is of it before the end would be in the line.
      obtain ⟨w, hw⟩ := h
      rw [← List.append_assoc] at hw
      have hv : v = [] := by
        refine List.eq_nil_iff_forall_not_mem.2 fun c hc => ?_
        have hbreak := he' c (List.mem_append_left e hc)
        rw [hl c (List.append_cancel_right hw ▸ List.mem_append_right w hc)] at hbreak
        cases hbreak
      rw [hv, List.nil_append]
  · intro h
    exact h.trans (List.suffix_append l e)

/-- A line is what is left of a piece without its terminator. -/
theorem CutLine.dropTerminator_eq {p : Text × Text} (h : CutLine p) :
    dropTerminator (p.1 ++ p.2) = p.1 := by
  have hfind : terminators.find? (fun e => e.isSuffixOf (p.1 ++ p.2)) =
      terminators.find? fun e => e.isSuffixOf p.2 := by
    refine List.find?_congr fun e he => ?_
    have hbreak : ∀ c ∈ e, isLineBreak c = true := by
      simp only [terminators, List.mem_cons, List.not_mem_nil, or_false] at he
      rcases he with rfl | rfl | rfl
      all_goals simp [isLineBreak]
    rw [Bool.eq_iff_iff, List.isSuffixOf_iff_suffix, List.isSuffixOf_iff_suffix,
      suffix_append_iff h.noBreak hbreak]
  have hself : ∀ e ∈ terminators, terminators.find? (fun e' => e'.isSuffixOf e) = some e := by
    decide
  unfold dropTerminator
  rw [hfind]
  by_cases hend : p.2 = []
  · rw [hend, show terminators.find? (fun e => e.isSuffixOf []) = none by decide, List.append_nil]
  · rw [hself p.2 (h.mem_terminators hend)]
    simp

/-- A line that nothing ends is not empty. -/
theorem IsCut.line_ne_nil {cut : List (Text × Text)} (h : IsCut cut) :
    ∀ p ∈ cut, p.2 = [] → p.1 ≠ [] := by
  induction h with
  | nil => simp
  | last hl hne => simpa using hne
  | crlf hl hrest ih => exact List.forall_mem_cons.2 ⟨by simp, ih⟩
  | cr hl hrest hnext ih => exact List.forall_mem_cons.2 ⟨by simp, ih⟩
  | lf hl hrest ih => exact List.forall_mem_cons.2 ⟨by simp, ih⟩

/-- The pieces of a text are those that a search finds, and together they are the text.  Each ends
in one terminator and has no line break before it, but for the last, which may be a line without a
terminator.  Without the terminators the pieces are the lines of the text. -/
theorem pieces_without_terminators (t : Text) :
    (∀ ps, PieceSearch t ps ↔ ps = pieces t) ∧
      (pieces t).flatten = t ∧
      (∀ p ∈ (pieces t).dropLast, IsTerminated p) ∧
      (∀ p ∈ (pieces t).getLast?,
        IsTerminated p ∨ p ≠ [] ∧ ∀ c ∈ p, isLineBreak c = false) ∧
      (pieces t).map dropTerminator = lines t := by
  have hpieces : pieces t = (cutLines t).map fun p => p.1 ++ p.2 := pieces_eq_map t
  have hpiece : ∀ p ∈ cutLines t, p.2 ≠ [] → IsTerminated (p.1 ++ p.2) := fun p hp hend =>
    ⟨p.1, p.2, (cutLine_of_mem hp).mem_terminators hend, (cutLine_of_mem hp).noBreak, rfl⟩
  refine ⟨fun ps => pieceSearch_iff, flatten_pieces t, ?_, ?_, ?_⟩
  · rw [hpieces, ← List.map_dropLast, List.forall_mem_map]
    intro p hp
    exact hpiece p (List.mem_of_mem_dropLast hp) (terminated_of_mem_dropLast t p hp)
  · intro p hp
    have hmem := List.mem_of_getLast? hp
    rw [hpieces, List.mem_map] at hmem
    obtain ⟨q, hq, rfl⟩ := hmem
    by_cases hend : q.2 = []
    · rw [hend, List.append_nil]
      exact .inr ⟨(isCut_cutLines t).line_ne_nil q hq hend, (cutLine_of_mem hq).noBreak⟩
    · exact .inl (hpiece q hq hend)
  · rw [hpieces, lines_eq_map_fst, List.map_map]
    exact List.map_congr_left fun p hp => (cutLine_of_mem hp).dropTerminator_eq

end InsecureLinks.Text
