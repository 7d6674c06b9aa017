import Mathlib
import InsecureLinks.Proofs.Replace.Partly

/-!
# Counting what is secured

Making a link secure makes the text longer by one character, so how many links replacing has made
secure can be read off the lengths before and after (`length_of_inText`).  For a file that has been
secured in part these are the links in the lines that have violations and have not been secured yet
(`inText_count`).
-/

namespace InsecureLinks

namespace Replace

/-! ## Lengths -/

theorem position_le (length : ℕ) (k : ℤ) : position length k ≤ length := by
  rw [position]
  split_ifs <;> omega

theorem length_of_secureAt? {line changed : Text} {column : ℤ}
    (h : secureAt? line column = some changed) : changed.length = line.length + 1 := by
  rw [secureAt?] at h
  split_ifs at h with hslice
  obtain rfl := Option.some.inj h
  have hbefore := position_le line.length column
  have hafter := position_le line.length (column + insecure.length)
  have hlength := congrArg List.length hslice
  rw [slice, List.length_drop, List.length_take, show insecure.length = 7 from rfl] at hlength
  rw [show insecure.length = 7 from rfl] at hafter ⊢
  rw [List.length_append, List.length_append, List.length_take, List.length_drop,
    show secure.length = 8 from rfl]
  push_cast at hlength hafter ⊢
  omega

theorem length_secureColumns (line : Text) (columns : List ℤ) :
    (secureColumns line columns).1.length = line.length + (secureColumns line columns).2 := by
  induction columns generalizing line with
  | nil => rfl
  | cons column rest ih =>
    rw [secureColumns]
    rcases hsecure : secureAt? line column with _ | changed
    · exact ih line
    · dsimp only
      rw [ih changed, length_of_secureAt? hsecure]
      omega

theorem lineIndex_lt {count k : ℕ} {lineNumber : ℤ}
    (h : lineIndex count lineNumber = .ok (some k)) : k < count := by
  rw [lineIndex] at h
  split_ifs at h with hafter hin hback
  · cases h
  · have hk := Option.some.inj (Except.ok.inj h)
    omega
  · have hk := Option.some.inj (Except.ok.inj h)
    omega

theorem length_flatten_set {pieces : List Text} {k : ℕ} (hk : k < pieces.length) (line : Text) :
    (pieces.set k line).flatten.length + (pieces.getD k []).length =
      pieces.flatten.length + line.length := by
  induction pieces generalizing k with
  | nil => cases hk
  | cons piece pieces ih =>
    rcases k with _ | k
    · simp only [List.set_cons_zero, List.flatten_cons, List.length_append, List.getD_cons_zero]
      omega
    · have hrest := ih (Nat.lt_of_succ_lt_succ hk)
      simp only [List.set_cons_succ, List.flatten_cons, List.length_append, List.getD_cons_succ]
      omega

theorem length_of_secureLines {groups : Groups ℤ ℤ} {pieces pieces' : List Text} {n : ℕ}
    (h : secureLines pieces groups = .ok (pieces', n)) :
    pieces'.flatten.length = pieces.flatten.length + n := by
  induction groups generalizing pieces n with
  | nil =>
    cases h
    rfl
  | cons g rest ih =>
    obtain ⟨lineNumber, columns⟩ := g
    rw [secureLines] at h
    obtain ⟨k?, hindex, h⟩ := bind_eq_ok.1 h
    rcases k? with _ | k
    · exact ih h
    · obtain ⟨⟨pieces₁, m⟩, hrest, h⟩ := bind_eq_ok.1 h
      obtain ⟨rfl, rfl⟩ := Prod.mk.inj (Except.ok.inj h)
      have hset := length_flatten_set (lineIndex_lt hindex)
        (secureColumns (pieces.getD k []) (ordered columns)).1
      have hline := length_secureColumns (pieces.getD k []) (ordered columns)
      rw [ih hrest]
      omega

/-- As many links are made secure as the text grows by characters. -/
theorem length_of_inText {content changed : Text} {vs : List Violation} {n : ℕ}
    (h : inText content vs = .ok (changed, n)) : changed.length = content.length + n := by
  have hcontent := cutMark_flatten content
  rcases hcut : cutMark content with ⟨mark, rest⟩
  rw [hcut] at hcontent
  rw [inText, hcut] at h
  obtain ⟨⟨pieces, m⟩, hlines, h⟩ := bind_eq_ok.1 h
  obtain ⟨rfl, rfl⟩ := Prod.mk.inj (Except.ok.inj h)
  rw [← hcontent, List.length_append, List.length_append, length_of_secureLines hlines,
    Text.flatten_pieces, Nat.add_assoc]

end Replace

theorem length_secured (l : Text) :
    (secured l).length = l.length + (Text.starts insecure l).length := by
  have hcount := Replace.secureColumns_starts l []
  have hlength := Replace.length_secureColumns (l ++ [])
    ((Text.starts insecure l).reverse.map fun (k : ℕ) => (k : ℤ))
  rw [hcount] at hlength
  simpa using hlength

/-! ## Links in some lines -/

/-- How many links there are in some lines of a text. -/
def linksWhere (chosen : ℕ → Bool) (t : Text) : ℕ :=
  ((Text.cutLines t).zipIdx.map fun p =>
    if chosen p.2 then (Text.starts insecure p.1.1).length else 0).sum

theorem length_securedWhere (chosen : ℕ → Bool) (t : Text) :
    (securedWhere chosen t).length = t.length + linksWhere chosen t := by
  have hlines : t.length =
      ((Text.cutLines t).zipIdx.map fun p => p.1.1.length + p.1.2.length).sum := by
    have hcut := congrArg List.length (Text.flatMap_cutLines t)
    rw [List.length_flatMap] at hcut
    rw [← hcut, ← List.zipIdx_map_fst 0 (Text.cutLines t), List.map_map]
    simp [Function.comp_def]
  rw [hlines, linksWhere, ← List.sum_map_add, securedWhere, Text.changeLines, List.length_flatMap]
  refine congrArg List.sum (List.map_congr_left fun p _ => ?_)
  rw [List.length_append]
  split_ifs
  · rw [length_secured]
    omega
  · omega

/-- The links in some lines, and those in others that are not among them. -/
theorem linksWhere_or (chosen others : ℕ → Bool) (t : Text) :
    linksWhere (fun k => chosen k || others k) t =
      linksWhere chosen t + linksWhere (fun k => others k && !chosen k) t := by
  rw [linksWhere, linksWhere, linksWhere, ← List.sum_map_add]
  refine congrArg List.sum (List.map_congr_left fun p _ => ?_)
  rcases chosen p.2 with _ | _
  · simp
  · simp

/-- The links in some lines are those in the ones that have been chosen before, and the others. -/
theorem linksWhere_split (lines chosen : ℕ → Bool) (t : Text) :
    linksWhere lines t =
      linksWhere (fun k => lines k && !chosen k) t + linksWhere (fun k => lines k && chosen k) t := by
  rw [linksWhere, linksWhere, linksWhere, ← List.sum_map_add]
  refine congrArg List.sum (List.map_congr_left fun p _ => ?_)
  rcases chosen p.2 with _ | _
  · simp
  · simp

theorem linksWhere_eq_zero_iff {chosen : ℕ → Bool} {t : Text} :
    linksWhere chosen t = 0 ↔ ∀ p k, (Text.cutLines t)[k]? = some p → chosen k = true →
      Text.starts insecure p.1 = [] := by
  rw [linksWhere, List.sum_eq_zero_iff, List.forall_mem_map]
  constructor
  · intro h p k hp hk
    have hzero := h (p, k) (List.mem_zipIdx_iff_getElem?.2 hp)
    rw [if_pos hk] at hzero
    exact List.eq_nil_of_length_eq_zero hzero
  · intro h p hp
    split_ifs with hk
    · rw [h p.1 p.2 (List.mem_zipIdx_iff_getElem?.1 hp) hk, List.length_nil]
    · rfl

/-! ## Files that are secured in part -/

section Offends

variable {w : Whitelist} {f : SourceFile} {t : Text} {chosen : ℕ → Bool}

/-- A line that has violations has links. -/
theorem SourceFile.starts_ne_nil_of_offends {p : Text × Text} {k : ℕ}
    (hp : (Text.cutLines t)[k]? = some p) (h : f.offends w t k = true) :
    Text.starts insecure p.1 ≠ [] := by
  rw [offends_of_line hp, lineViolations] at h
  split_ifs at h
  · cases h
  · intro hnil
    rw [lineLinks, hnil] at h
    cases h

/-- The lines of a file that have violations hold as many links as are left once some lines have been
secured exactly if none of these is among them. -/
theorem linksWhere_offends_eq_iff :
    linksWhere (fun k => f.offends w t k && !chosen k) t = linksWhere (f.offends w t) t ↔
      ∀ k, f.offends w t k = true → chosen k = false := by
  rw [linksWhere_split (f.offends w t) chosen, left_eq_add, linksWhere_eq_zero_iff]
  constructor
  · intro h k hk
    rcases hp : (Text.cutLines t)[k]? with _ | p
    · rw [SourceFile.offends, hp] at hk
      cases hk
    · by_contra hchosen
      rw [Bool.not_eq_false] at hchosen
      exact SourceFile.starts_ne_nil_of_offends hp hk (h p k hp (by rw [hk, hchosen]; rfl))
  · intro h p k _ hk
    rw [Bool.and_eq_true] at hk
    rw [h k hk.1] at hk
    cases hk.2

theorem linksWhere_offends_pos (h : f.violations w t ≠ []) : 0 < linksWhere (f.offends w t) t := by
  obtain ⟨v, hv⟩ := List.exists_mem_of_ne_nil _ h
  obtain ⟨p, k, hp, hv⟩ := SourceFile.exists_line_of_mem_violations hv
  have hoffends : f.offends w t k = true := by
    rw [SourceFile.offends_of_line hp]
    simpa using List.ne_nil_of_mem hv
  refine Nat.pos_of_ne_zero fun hzero => ?_
  exact SourceFile.starts_ne_nil_of_offends hp hoffends (linksWhere_eq_zero_iff.1 hzero p k hp hoffends)

/-- Replacing counts the links of the lines that have violations and have not been secured yet. -/
theorem Replace.inText_count {vs : List Violation} {mark : Text}
    (hmark : mark = [Utf8.byteOrderMarkChar] ∨
      mark = [] ∧ t.head? ≠ some Utf8.byteOrderMarkChar)
    (hvs : ∀ v, v ∈ vs ↔ v ∈ f.violations w t) (chosen : ℕ → Bool) :
    inText (mark ++ securedWhere chosen t) vs =
      .ok (mark ++ securedWhere (fun k => chosen k || f.offends w t k) t,
        linksWhere (fun k => f.offends w t k && !chosen k) t) := by
  obtain ⟨n, htext⟩ := inText_securedWhere hmark hvs chosen
  have hlength := length_of_inText htext
  rw [List.length_append, List.length_append, length_securedWhere, length_securedWhere,
    linksWhere_or] at hlength
  obtain rfl : n = linksWhere (fun k => f.offends w t k && !chosen k) t := by omega
  exact htext

end Offends

end InsecureLinks
