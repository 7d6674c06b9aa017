import Mathlib
import InsecureLinks.Text.LineBreak

/-!
# One model of lines

`Text.lines` finds the lines of a file and `Text.pieces` cuts the file for rewriting.  The two are
written independently, and a rewritten file is right only if they agree on every line.  Both are
read off one cut of the text, `Text.cutLines`, which pairs each line with the terminator that ends
it (`lines_eq_map_fst`, `pieces_eq_map`).

`CutLine` says what such a pair may be: a line without line breaks and one of the three
terminators (`cutLine_of_mem`), which only the last line may lack (`terminated_of_mem_dropLast`).
-/

namespace InsecureLinks.Text

/-- Whether `c` ends a line of a file. -/
def isLineBreak (c : Char) : Bool := c = '\r' || c = '\n'

/-- The lines of a text, each with its terminator. -/
def cutLines : Text → List (Text × Text)
  | [] => []
  | '\r' :: '\n' :: t => ([], ['\r', '\n']) :: cutLines t
  | '\r' :: t => ([], ['\r']) :: cutLines t
  | '\n' :: t => ([], ['\n']) :: cutLines t
  | c :: t =>
    match cutLines t with
    | [] => [([c], [])]
    | (l, e) :: rest => (c :: l, e) :: rest

/-! ## The five ways in which a text begins -/

attribute [local simp] cutLines pieces betweenBreaks

/-- Induction on how a text begins: with one of the terminators, `CR LF` before `CR`, or with a
character that is none. -/
theorem break_induction {P : Text → Prop} (nil : P [])
    (crlf : ∀ t, P t → P ('\r' :: '\n' :: t))
    (cr : ∀ t, t.head? ≠ some '\n' → P t → P ('\r' :: t))
    (lf : ∀ t, P t → P ('\n' :: t))
    (char : ∀ c t, isLineBreak c = false → P t → P (c :: t)) (t : Text) : P t := by
  induction hn : t.length using Nat.strong_induction_on generalizing t with
  | _ n ih =>
    subst hn
    rcases t with _ | ⟨c, t⟩
    · exact nil
    by_cases hcr : c = '\r'
    · subst hcr
      rcases t with _ | ⟨d, t⟩
      · exact cr [] (by simp) nil
      by_cases hlf : d = '\n'
      · subst hlf
        exact crlf t (ih _ (by simp) t rfl)
      · exact cr _ (by simp [hlf]) (ih _ (by simp) _ rfl)
    by_cases hlf : c = '\n'
    · subst hlf
      exact lf t (ih _ (by simp) t rfl)
    · exact char c t (by simp [isLineBreak, hcr, hlf]) (ih _ (by simp) t rfl)

section Char

variable {c : Char} {t : Text}

theorem ne_of_not_isLineBreak (h : isLineBreak c = false) : c ≠ '\r' ∧ c ≠ '\n' := by
  simpa [isLineBreak] using h

@[simp] theorem cutLines_nil : cutLines [] = [] := rfl

@[simp] theorem cutLines_crlf : cutLines ('\r' :: '\n' :: t) = ([], ['\r', '\n']) :: cutLines t := by
  rw [cutLines]

theorem cutLines_cr (h : t.head? ≠ some '\n') :
    cutLines ('\r' :: t) = ([], ['\r']) :: cutLines t := by
  rw [cutLines]
  rintro u rfl
  simp at h

@[simp] theorem cutLines_lf : cutLines ('\n' :: t) = ([], ['\n']) :: cutLines t := by
  rw [cutLines]

theorem cutLines_char (h : isLineBreak c = false) :
    cutLines (c :: t) =
      match cutLines t with
      | [] => [([c], [])]
      | (l, e) :: rest => (c :: l, e) :: rest := by
  obtain ⟨hcr, hlf⟩ := ne_of_not_isLineBreak h
  rw [cutLines]
  all_goals simp_all

/-! ## Pieces -/

theorem pieces_cr (h : t.head? ≠ some '\n') : pieces ('\r' :: t) = ['\r'] :: pieces t := by
  rw [pieces]
  rintro u rfl
  simp at h

theorem pieces_char (h : isLineBreak c = false) :
    pieces (c :: t) =
      match pieces t with
      | [] => [[c]]
      | p :: ps => (c :: p) :: ps := by
  obtain ⟨hcr, hlf⟩ := ne_of_not_isLineBreak h
  rw [pieces]
  · rcases pieces t with _ | ⟨p, ps⟩
    · rfl
    · simp [hcr, hlf]
  all_goals simp_all

/-- The pieces are the lines with their terminators. -/
theorem pieces_eq_map (t : Text) : pieces t = (cutLines t).map fun (l, e) => l ++ e := by
  induction t using break_induction with
  | nil => rfl
  | crlf t ih => simp [ih]
  | cr t h ih => simp [pieces_cr h, cutLines_cr h, ih]
  | lf t ih => simp [ih]
  | char c t h ih =>
    rw [pieces_char h, cutLines_char h, ih]
    rcases cutLines t with _ | ⟨⟨l, e⟩, rest⟩
    · rfl
    · rfl

/-! ## Lines -/

theorem betweenBreaks_ne_nil (t : Text) : betweenBreaks t ≠ [] := by
  induction t using break_induction with
  | nil => simp
  | crlf t ih => simp
  | cr t h ih =>
    rw [betweenBreaks]
    · simp
    · rintro u rfl
      simp at h
  | lf t ih => simp
  | char c t h ih =>
    obtain ⟨hcr, hlf⟩ := ne_of_not_isLineBreak h
    rw [betweenBreaks]
    · split <;> simp
    all_goals simp_all

theorem dropEmptyLast_cons {l : Text} {ls : List Text} (h : ls ≠ []) :
    dropEmptyLast (l :: ls) = l :: dropEmptyLast ls := by
  obtain ⟨m, ms, rfl⟩ := List.exists_cons_of_ne_nil h
  rfl

theorem lines_crlf : lines ('\r' :: '\n' :: t) = [] :: lines t := by
  rw [lines, betweenBreaks, dropEmptyLast_cons (betweenBreaks_ne_nil t), lines]

theorem lines_cr (h : t.head? ≠ some '\n') : lines ('\r' :: t) = [] :: lines t := by
  rw [lines, betweenBreaks, dropEmptyLast_cons (betweenBreaks_ne_nil t), lines]
  rintro u rfl
  simp at h

theorem lines_lf : lines ('\n' :: t) = [] :: lines t := by
  rw [lines, betweenBreaks, dropEmptyLast_cons (betweenBreaks_ne_nil t), lines]

theorem lines_char (h : isLineBreak c = false) :
    lines (c :: t) =
      match lines t with
      | [] => [[c]]
      | l :: ls => (c :: l) :: ls := by
  obtain ⟨hcr, hlf⟩ := ne_of_not_isLineBreak h
  have hbetween : betweenBreaks (c :: t) =
      match betweenBreaks t with
      | [] => [[c]]
      | l :: ls => (c :: l) :: ls :=
    betweenBreaks.eq_5 c t (fun _ hc _ => hcr hc) hcr hlf
  rw [lines, lines, hbetween]
  obtain ⟨l, ls, hl⟩ := List.exists_cons_of_ne_nil (betweenBreaks_ne_nil t)
  rw [hl]
  rcases ls with _ | ⟨m, ms⟩
  · rcases l with _ | ⟨d, l⟩
    · rfl
    · rfl
  · rfl

/-- The lines are those of the cut. -/
theorem lines_eq_map_fst (t : Text) : lines t = (cutLines t).map Prod.fst := by
  induction t using break_induction with
  | nil => rfl
  | crlf t ih => simp [lines_crlf, ih]
  | cr t h ih => simp [lines_cr h, cutLines_cr h, ih]
  | lf t ih => simp [lines_lf, ih]
  | char c t h ih =>
    rw [lines_char h, cutLines_char h, ih]
    rcases cutLines t with _ | ⟨⟨l, e⟩, rest⟩
    · rfl
    · rfl

end Char

/-! ## The cut as a whole -/

/-- The lines with their terminators are the text again. -/
theorem flatMap_cutLines (t : Text) : (cutLines t).flatMap (fun (l, e) => l ++ e) = t := by
  induction t using break_induction with
  | nil => rfl
  | crlf t ih => simp [ih]
  | cr t h ih => simp [cutLines_cr h, ih]
  | lf t ih => simp [ih]
  | char c t h ih =>
    rw [cutLines_char h]
    rcases hcut : cutLines t with _ | ⟨⟨l, e⟩, rest⟩
    · rw [hcut] at ih
      simpa using ih
    · rw [hcut] at ih
      simpa using ih

theorem infix_of_mem_cutLines {t : Text} {p : Text × Text} (h : p ∈ cutLines t) : p.1 ++ p.2 <:+: t := by
  have hinfix : p.1 ++ p.2 <:+: ((cutLines t).map fun p => p.1 ++ p.2).flatten :=
    List.infix_of_mem_flatten (List.mem_map.2 ⟨p, h, rfl⟩)
  have hjoined : (cutLines t).flatMap (fun p => p.1 ++ p.2) = t := flatMap_cutLines t
  rwa [← List.flatMap_def, hjoined] at hinfix

theorem flatten_pieces (t : Text) : (pieces t).flatten = t := by
  rw [pieces_eq_map, ← List.flatMap_def]
  exact flatMap_cutLines t

/-- A line without line breaks, and what ends it. -/
structure CutLine (p : Text × Text) : Prop where
  noBreak : ∀ c ∈ p.1, isLineBreak c = false
  terminator : p.2 ∈ [[], ['\r', '\n'], ['\r'], ['\n']]

theorem CutLine.isLineBreak_terminator {p : Text × Text} (h : CutLine p) :
    ∀ c ∈ p.2, isLineBreak c = true := by
  have hcut := h.terminator
  simp only [List.mem_cons, List.not_mem_nil, or_false] at hcut
  rcases hcut with h | h | h | h <;> simp [h, isLineBreak]

theorem cutLine_of_mem {t : Text} {p : Text × Text} (h : p ∈ cutLines t) : CutLine p := by
  induction t using break_induction generalizing p with
  | nil => simp at h
  | crlf t ih =>
    rcases List.mem_cons.1 (cutLines_crlf ▸ h) with rfl | h
    · exact ⟨by simp, by simp⟩
    · exact ih h
  | cr t hcr ih =>
    rcases List.mem_cons.1 (cutLines_cr hcr ▸ h) with rfl | h
    · exact ⟨by simp, by simp⟩
    · exact ih h
  | lf t ih =>
    rcases List.mem_cons.1 (cutLines_lf ▸ h) with rfl | h
    · exact ⟨by simp, by simp⟩
    · exact ih h
  | char c t hc ih =>
    rw [cutLines_char hc] at h
    rcases hcut : cutLines t with _ | ⟨⟨l, e⟩, rest⟩
    · rw [hcut] at h
      obtain rfl := List.mem_singleton.1 h
      exact ⟨by simpa using hc, by simp⟩
    · rw [hcut] at h ih
      rcases List.mem_cons.1 h with rfl | h
      · have hl := ih (List.mem_cons_self ..)
        exact ⟨by simpa [hc] using hl.noBreak, hl.terminator⟩
      · exact ih (List.mem_cons_of_mem _ h)

theorem forall_dropLast_cons {P : Text × Text → Prop} {p : Text × Text} {ps : List (Text × Text)}
    (hp : P p) (h : ∀ q ∈ ps.dropLast, P q) : ∀ q ∈ (p :: ps).dropLast, P q := by
  rcases ps with _ | ⟨q, ps⟩
  · simp
  · rw [List.dropLast_cons_cons]
    exact List.forall_mem_cons.2 ⟨hp, h⟩

/-- Every line but the last has a terminator. -/
theorem terminated_of_mem_dropLast (t : Text) : ∀ p ∈ (cutLines t).dropLast, p.2 ≠ [] := by
  induction t using break_induction with
  | nil => simp
  | crlf t ih => exact cutLines_crlf ▸ forall_dropLast_cons (by simp) ih
  | cr t h ih => exact cutLines_cr h ▸ forall_dropLast_cons (by simp) ih
  | lf t ih => exact cutLines_lf ▸ forall_dropLast_cons (by simp) ih
  | char c t h ih =>
    rw [cutLines_char h]
    rcases hcut : cutLines t with _ | ⟨⟨l, e⟩, _ | ⟨q, rest⟩⟩
    · simp
    · simp
    · rw [hcut] at ih
      simpa using ih

end InsecureLinks.Text
