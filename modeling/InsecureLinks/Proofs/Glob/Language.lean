import Mathlib
import InsecureLinks.Glob.Match

/-!
# What a pattern matches

Each token takes certain texts (`Token.Takes`), and a list of tokens matches a path that can be cut
into pieces of which each token takes one (`Matches`).  `accepts` decides this without trying the
cuts one by one (`accepts_iff`): the row that it carries from token to token holds, for the path
and for each of its tails, whether the tokens so far match it (`IsRow`).
-/

namespace InsecureLinks.Glob

/-! ## The texts of a token -/

/-- The texts that a token takes. -/
def Token.Takes : Token → Text → Prop
  | .one s, x => ∃ c, s.contains c = true ∧ x = [c]
  | .many s, x => ∀ c ∈ x, s.contains c = true
  | .folders, x => x = [] ∨ ∃ y, x = y ++ ['/'] ∧ '\n' ∉ y

/-- The texts with a piece that `t` takes and a rest in `L`. -/
def Token.Then (t : Token) (L : Text → Prop) (x : Text) : Prop :=
  ∃ u v, x = u ++ v ∧ t.Takes u ∧ L v

/-- The paths that can be cut into one piece for each token. -/
def Matches : List Token → Text → Prop
  | [] => (· = [])
  | t :: ts => t.Then (Matches ts)

@[simp] theorem CharSet.contains_allBut (c d : Char) :
    (CharSet.allBut c).contains d = true ↔ d ≠ c := by
  rw [ne_eq, ← Char.toNat_inj]
  simp [CharSet.allBut, CharSet.contains]

@[simp] theorem CharSet.contains_only (c d : Char) :
    (CharSet.only c).contains d = true ↔ d = c := by
  rw [← Char.toNat_inj]
  simp [CharSet.only, CharSet.contains]
  omega

theorem matches_append {ts us : List Token} {x : Text} :
    Matches (ts ++ us) x ↔ ∃ u v, x = u ++ v ∧ Matches ts u ∧ Matches us v := by
  induction ts generalizing x with
  | nil => simp [Matches]
  | cons t ts ih =>
    constructor
    · rintro ⟨a, b, rfl, ha, hb⟩
      obtain ⟨u, v, rfl, hu, hv⟩ := ih.1 hb
      exact ⟨a ++ u, v, by simp, ⟨a, u, rfl, ha, hu⟩, hv⟩
    · rintro ⟨u, v, rfl, ⟨a, b, rfl, ha, hb⟩, hv⟩
      exact ⟨a, b ++ v, by simp, ha, ih.2 ⟨b, v, rfl, hb, hv⟩⟩

theorem matches_singleton {t : Token} {x : Text} : Matches [t] x ↔ t.Takes x := by
  constructor
  · rintro ⟨u, v, rfl, hu, rfl⟩
    simpa using hu
  · intro h
    exact ⟨x, [], by simp, h, rfl⟩

/-! ## One step of each token -/

section Step

variable {s : CharSet} {L : Text → Prop} {c : Char} {t : Text}

theorem one_then_nil : ¬(Token.one s).Then L [] := by
  rintro ⟨u, v, h, ⟨c, -, rfl⟩, -⟩
  simp at h

theorem one_then_cons : (Token.one s).Then L (c :: t) ↔ s.contains c = true ∧ L t := by
  constructor
  · rintro ⟨u, v, h, ⟨d, hd, rfl⟩, hv⟩
    obtain ⟨rfl, rfl⟩ : c = d ∧ t = v := by simpa using h
    exact ⟨hd, hv⟩
  · rintro ⟨hc, ht⟩
    exact ⟨[c], t, rfl, ⟨c, hc, rfl⟩, ht⟩

theorem many_then_nil : (Token.many s).Then L [] ↔ L [] := by
  constructor
  · rintro ⟨u, v, h, -, hv⟩
    obtain ⟨rfl, rfl⟩ := List.append_eq_nil_iff.1 h.symm
    exact hv
  · intro h
    exact ⟨[], [], rfl, by simp [Token.Takes], h⟩

theorem many_then_cons :
    (Token.many s).Then L (c :: t) ↔
      L (c :: t) ∨ s.contains c = true ∧ (Token.many s).Then L t := by
  constructor
  · rintro ⟨_ | ⟨d, u⟩, v, h, hu, hv⟩
    · exact .inl (by simpa [h] using hv)
    · obtain ⟨rfl, rfl⟩ : c = d ∧ t = u ++ v := by simpa using h
      exact .inr ⟨hu c (by simp), u, v, rfl, fun d hd => hu d (by simp [hd]), hv⟩
  · rintro (h | ⟨hc, u, v, rfl, hu, hv⟩)
    · exact ⟨[], c :: t, rfl, by simp [Token.Takes], h⟩
    · exact ⟨c :: u, v, rfl, by simpa [Token.Takes, hc] using hu, hv⟩

/-- The texts with a beginning that ends in a slash and has no newline, and a rest in `L`. -/
def BelowFolder (L : Text → Prop) (x : Text) : Prop :=
  ∃ y v, x = y ++ '/' :: v ∧ '\n' ∉ y ∧ L v

theorem belowFolder_nil : ¬BelowFolder L [] := by
  rintro ⟨y, v, h, -⟩
  simp at h

theorem belowFolder_cons :
    BelowFolder L (c :: t) ↔ c = '/' ∧ L t ∨ c ≠ '\n' ∧ BelowFolder L t := by
  constructor
  · rintro ⟨_ | ⟨d, y⟩, v, h, hy, hv⟩
    · obtain ⟨rfl, rfl⟩ : c = '/' ∧ t = v := by simpa using h
      exact .inl ⟨rfl, hv⟩
    · obtain ⟨rfl, rfl⟩ : c = d ∧ t = y ++ '/' :: v := by simpa using h
      simp only [List.mem_cons, not_or] at hy
      exact .inr ⟨Ne.symm hy.1, y, v, rfl, hy.2, hv⟩
  · rintro (⟨rfl, ht⟩ | ⟨hc, y, v, rfl, hy, hv⟩)
    · exact ⟨[], t, rfl, by simp, ht⟩
    · exact ⟨c :: y, v, rfl, by simp [Ne.symm hc, hy], hv⟩

theorem folders_then {x : Text} : Token.folders.Then L x ↔ L x ∨ BelowFolder L x := by
  constructor
  · rintro ⟨u, v, rfl, rfl | ⟨y, rfl, hy⟩, hv⟩
    · exact .inl hv
    · exact .inr ⟨y, v, by simp, hy, hv⟩
  · rintro (h | ⟨y, v, rfl, hy, hv⟩)
    · exact ⟨[], x, rfl, .inl rfl, h⟩
    · exact ⟨y ++ ['/'], v, by simp, .inr ⟨y, rfl, hy⟩, hv⟩

end Step

/-! ## Rows -/

/-- Whether `row` says of a path and of each of its tails whether it is in `L`. -/
def IsRow (L : Text → Prop) : Text → Row → Prop
  | [], row => ∃ b, row = [b] ∧ (b = true ↔ L [])
  | c :: t, row => ∃ b rest, row = b :: rest ∧ (b = true ↔ L (c :: t)) ∧ IsRow L t rest

variable {L : Text → Prop} {path : Text} {row : Row}

theorem IsRow.first_iff (h : IsRow L path row) : row.first = true ↔ L path := by
  rcases path with _ | ⟨c, t⟩
  · obtain ⟨b, rfl, hb⟩ := h
    exact hb
  · obtain ⟨b, rest, rfl, hb, -⟩ := h
    exact hb

theorem isRow_endRow (path : Text) : IsRow (Matches []) path (endRow path) := by
  induction path with
  | nil => exact ⟨true, rfl, by simp [Matches]⟩
  | cons c t ih => exact ⟨false, _, rfl, by simp [Matches], ih⟩

theorem IsRow.oneRow (s : CharSet) (h : IsRow L path row) :
    IsRow ((Token.one s).Then L) path (oneRow s path row) := by
  induction path generalizing row with
  | nil => exact ⟨false, rfl, by simp [one_then_nil]⟩
  | cons c t ih =>
    obtain ⟨b, rest, rfl, -, hrest⟩ := h
    refine ⟨_, _, rfl, ?_, ih hrest⟩
    rw [one_then_cons, Bool.and_eq_true, hrest.first_iff]

theorem IsRow.manyRow (s : CharSet) (h : IsRow L path row) :
    IsRow ((Token.many s).Then L) path (manyRow s path row) := by
  induction path generalizing row with
  | nil =>
    obtain ⟨b, rfl, hb⟩ := h
    exact ⟨b, rfl, by rw [many_then_nil, hb]⟩
  | cons c t ih =>
    obtain ⟨b, rest, rfl, hb, hrest⟩ := h
    refine ⟨_, _, rfl, ?_, ih hrest⟩
    rw [many_then_cons, Bool.or_eq_true, Bool.and_eq_true, hb, (ih hrest).first_iff]

theorem IsRow.folderRow (h : IsRow L path row) :
    IsRow (BelowFolder L) path (folderRow path row) := by
  induction path generalizing row with
  | nil => exact ⟨false, rfl, by simp [belowFolder_nil]⟩
  | cons c t ih =>
    obtain ⟨b, rest, rfl, -, hrest⟩ := h
    refine ⟨_, _, rfl, ?_, ih hrest⟩
    rw [belowFolder_cons, Bool.or_eq_true, Bool.and_eq_true, Bool.and_eq_true,
      hrest.first_iff, (ih hrest).first_iff, decide_eq_true_iff, decide_eq_true_iff]

theorem IsRow.or {L' : Text → Prop} {row' : Row} (h : IsRow L path row)
    (h' : IsRow L' path row') :
    IsRow (fun x => L x ∨ L' x) path (List.zipWith (· || ·) row row') := by
  induction path generalizing row row' with
  | nil =>
    obtain ⟨b, rfl, hb⟩ := h
    obtain ⟨b', rfl, hb'⟩ := h'
    exact ⟨_, rfl, by rw [Bool.or_eq_true, hb, hb']⟩
  | cons c t ih =>
    obtain ⟨b, rest, rfl, hb, hrest⟩ := h
    obtain ⟨b', rest', rfl, hb', hrest'⟩ := h'
    exact ⟨_, _, rfl, by rw [Bool.or_eq_true, hb, hb'], ih hrest hrest'⟩

theorem IsRow.token (t : Token) (h : IsRow L path row) :
    IsRow (t.Then L) path (t.row path row) := by
  cases t with
  | one s => exact h.oneRow s
  | many s => exact h.manyRow s
  | folders =>
    have hor := h.or h.folderRow
    simp only [← folders_then] at hor
    exact hor

/-- The tokens of a pattern take a path exactly if it can be cut into one piece for each. -/
theorem accepts_iff (ts : List Token) (path : Text) : accepts ts path = true ↔ Matches ts path := by
  have hrow : IsRow (Matches ts) path (ts.foldr (Token.row path) (endRow path)) := by
    induction ts with
    | nil => exact isRow_endRow path
    | cons t ts ih => exact ih.token t
  exact hrow.first_iff

/-! ## Lists of patterns -/

/-- Whether a pattern that has a meaning matches a path. -/
def MatchesPattern (p path : Text) : Prop := ∃ ts, parse p = .ok ts ∧ Matches ts path

/-- If all patterns have a meaning, a path is tried against all of them. -/
theorem matchesAny_eq_ok {ps : List Text} (hps : ∀ p ∈ ps, ∃ ts, parse p = .ok ts) (path : Text) :
    ∃ b, matchesAny ps path = .ok b ∧ (b = true ↔ ∃ p ∈ ps, MatchesPattern p path) := by
  induction ps with
  | nil => exact ⟨false, rfl, by simp⟩
  | cons p ps ih =>
    obtain ⟨ts, hts⟩ := hps p (by simp)
    obtain ⟨b, hb, hiff⟩ := ih fun q hq => hps q (by simp [hq])
    have hp : MatchesPattern p path ↔ accepts ts path = true := by
      rw [accepts_iff]
      constructor
      · rintro ⟨us, hus, h⟩
        rw [hts] at hus
        cases hus
        exact h
      · intro h
        exact ⟨ts, hts, h⟩
    have hcons : matchesAny (p :: ps) path = if accepts ts path then .ok true else .ok b := by
      rw [matchesAny, hts, ← hb]
      rfl
    rw [hcons]
    by_cases h : accepts ts path = true
    · exact ⟨true, by simp [h], by simp [hp, h]⟩
    · exact ⟨b, by simp [h], by simp [hp, h, hiff]⟩

end InsecureLinks.Glob
