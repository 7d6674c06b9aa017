import Mathlib
import InsecureLinks.Proofs.Outcome
import InsecureLinks.Proofs.Replace.File
import InsecureLinks.Proofs.Text.Recut

/-!
# Securing a file that has been secured in part

When a file is come to under several names, its text is not what the scan has seen any more once
the first of them has been dealt with: some of its lines are secured already, and for those the
columns of the report are out of date.  They do no harm (`inText_securedWhere`): a secured line is
left as it is, and a line that no name before has touched is secured as if it were the first.

The violations may come in any order and more than once, as they do when a root is given twice.
-/

namespace InsecureLinks

/-- A text with some of its lines secured, by their numbers. -/
def securedWhere (chosen : ℕ → Bool) (t : Text) : Text :=
  Text.changeLines (fun l k => if chosen k then secured l else l) t

theorem keepsLines_securedWhere (chosen : ℕ → Bool) :
    Text.KeepsLines fun l k => if chosen k then secured l else l where
  noBreak l k hl := by
    split_ifs
    · exact noBreak_secured hl
    · exact hl
  eq_nil_iff l k := by
    split_ifs
    · exact secured_eq_nil_iff
    · exact Iff.rfl

theorem cutLines_securedWhere (chosen : ℕ → Bool) (t : Text) :
    Text.cutLines (securedWhere chosen t) = (Text.cutLines t).zipIdx.map fun p =>
      (if chosen p.2 then secured p.1.1 else p.1.1, p.1.2) :=
  (keepsLines_securedWhere chosen).cutLines_changeLines t

theorem head_securedWhere (chosen : ℕ → Bool) (t : Text) :
    (securedWhere chosen t).head? = t.head? := by
  refine (keepsLines_securedWhere chosen).head_changeLines (fun l k => ?_) t
  split_ifs
  · exact head_secured l
  · rfl

theorem securedWhere_none (t : Text) : securedWhere (fun _ => false) t = t :=
  Text.changeLines_of_eq fun _ _ => rfl

namespace SourceFile

variable {w : Whitelist} {f : SourceFile} {t : Text}

/-- Whether a line of a file has violations, by its number. -/
def offends (w : Whitelist) (f : SourceFile) (t : Text) (k : ℕ) : Bool :=
  match (Text.cutLines t)[k]? with
  | some p => !(f.lineViolations w (p, k)).isEmpty
  | none => false

theorem offends_of_line {p : Text × Text} {k : ℕ} (h : (Text.cutLines t)[k]? = some p) :
    f.offends w t k = !(f.lineViolations w (p, k)).isEmpty := by
  rw [offends, h]

/-- The violations of a file in one line. -/
theorem mem_violations_of_line {p : Text × Text} {k : ℕ} (h : (Text.cutLines t)[k]? = some p)
    {v : Violation} : v ∈ f.lineViolations w (p, k) ↔
      v ∈ f.violations w t ∧ v.lineNumber = ((k + 1 : ℕ) : ℤ) := by
  rw [violations_eq, List.mem_flatMap]
  constructor
  · intro hv
    exact ⟨⟨(p, k), List.mem_zipIdx_iff_getElem?.2 h, hv⟩, lineNumber_of_mem_lineViolations hv⟩
  · rintro ⟨⟨⟨q, j⟩, hq, hv⟩, hk⟩
    rw [lineNumber_of_mem_lineViolations hv] at hk
    obtain rfl : j = k := by simpa using hk
    rw [List.mem_zipIdx_iff_getElem?.1 hq] at h
    obtain rfl := Option.some.inj h
    exact hv

/-- A violation is in a line of the text. -/
theorem exists_line_of_mem_violations {v : Violation} (h : v ∈ f.violations w t) :
    ∃ p k, (Text.cutLines t)[k]? = some p ∧ v ∈ f.lineViolations w (p, k) := by
  rw [violations_eq, List.mem_flatMap] at h
  obtain ⟨⟨p, k⟩, hp, hv⟩ := h
  exact ⟨p, k, List.mem_zipIdx_iff_getElem?.1 hp, hv⟩

theorem exists_mem_of_offends {k : ℕ} (h : f.offends w t k = true) :
    ∃ v, v ∈ f.violations w t ∧ v.lineNumber = ((k + 1 : ℕ) : ℤ) := by
  rcases hp : (Text.cutLines t)[k]? with _ | p
  · rw [offends, hp] at h
    cases h
  · rw [offends_of_line hp] at h
    obtain ⟨v, hv⟩ := List.exists_mem_of_ne_nil (f.lineViolations w (p, k)) (by simpa using h)
    exact ⟨v, (mem_violations_of_line hp).1 hv⟩

/-- No violation is left in a text in which the lines with violations are secured, and maybe
others too. -/
theorem violations_securedWhere {chosen : ℕ → Bool}
    (h : ∀ k, f.offends w t k = true → chosen k = true) :
    f.violations w (securedWhere chosen t) = [] := by
  rw [violations_eq, List.flatMap_eq_nil_iff]
  rintro ⟨q, k⟩ hq
  rw [List.mem_zipIdx_iff_getElem?, cutLines_securedWhere, List.getElem?_map,
    List.getElem?_zipIdx] at hq
  rcases hp : (Text.cutLines t)[k]? with _ | p
  · rw [hp] at hq
    cases hq
  · rw [hp] at hq
    obtain rfl : (if chosen k then secured p.1 else p.1, p.2) = q := by simpa using hq
    by_cases hchosen : chosen k = true
    · rw [if_pos hchosen, lineViolations, lineLinks, starts_secured]
      split_ifs
      · rfl
      · rfl
    · have hoffends := mt (h k) hchosen
      rw [offends_of_line hp] at hoffends
      rw [if_neg hchosen]
      simpa using hoffends

end SourceFile

namespace Replace

/-! ## Lines that are left as they are -/

theorem secureColumns_of_zero {line : Text} {columns : List ℤ}
    (h : (secureColumns line columns).2 = 0) : (secureColumns line columns).1 = line := by
  induction columns with
  | nil => rfl
  | cons column rest ih =>
    rw [secureColumns] at h ⊢
    rcases hsecure : secureAt? line column with _ | changed
    · rw [hsecure] at h
      exact ih h
    · rw [hsecure] at h
      exact absurd h (Nat.succ_ne_zero _)

theorem secureLines_of_zero {groups : Groups ℤ ℤ} {pieces pieces' : List Text}
    (h : secureLines pieces groups = .ok (pieces', 0)) : pieces' = pieces := by
  induction groups generalizing pieces with
  | nil =>
    cases h
    rfl
  | cons g rest ih =>
    obtain ⟨lineNumber, columns⟩ := g
    rw [secureLines] at h
    obtain ⟨k?, -, h⟩ := bind_eq_ok.1 h
    rcases k? with _ | k
    · exact ih h
    · obtain ⟨⟨pieces₁, m⟩, hrest, h⟩ := bind_eq_ok.1 h
      obtain ⟨rfl, hsum⟩ := Prod.mk.inj (Except.ok.inj h)
      obtain ⟨hn, rfl⟩ := Nat.add_eq_zero_iff.1 hsum
      rw [ih hrest, secureColumns_of_zero hn, List.getD_eq_getElem?_getD]
      rcases hk : pieces[k]? with _ | piece
      · exact List.set_eq_of_length_le (List.getElem?_eq_none_iff.1 hk)
      · obtain ⟨hlt, rfl⟩ := List.getElem?_eq_some_iff.1 hk
        exact List.set_getElem_self hlt

theorem cutMark_flatten (content : Text) :
    (cutMark content).1 ++ (cutMark content).2 = content := by
  rcases content with _ | ⟨c, t⟩
  · rfl
  · rw [cutMark]
    split_ifs
    · rfl
    · rfl

/-- A text in which nothing was secured is as it was. -/
theorem inText_of_zero {content changed : Text} {vs : List Violation}
    (h : inText content vs = .ok (changed, 0)) : changed = content := by
  have hcontent := cutMark_flatten content
  rcases hcut : cutMark content with ⟨mark, rest⟩
  rw [hcut] at hcontent
  rw [inText, hcut] at h
  obtain ⟨⟨pieces, n⟩, hlines, h⟩ := bind_eq_ok.1 h
  obtain ⟨rfl, rfl⟩ := Prod.mk.inj (Except.ok.inj h)
  rw [secureLines_of_zero hlines, Text.flatten_pieces, hcontent]

/-! ## Lines that are secured -/

section Secured

variable {w : Whitelist} {f : SourceFile} {t : Text} {vs : List Violation}

/-- Securing a line at the columns of its violations, in any order, makes every link in it secure,
whether this has been done before or not. -/
theorem secureColumns_partly {p : Text × Text} {k : ℕ} (hp : p ∈ Text.cutLines t)
    {columns : List ℤ} (hne : f.lineViolations w (p, k) ≠ [])
    (hcolumns : ∀ j, j ∈ columns ↔ j ∈ (f.lineViolations w (p, k)).map Violation.columnOffset)
    (already : Bool) :
    (secureColumns ((if already then secured p.1 else p.1) ++ p.2) (ordered columns)).1 =
      secured p.1 ++ p.2 := by
  have hstarts : ordered columns =
      (Text.starts insecure p.1).reverse.map fun (k : ℕ) => (k : ℤ) := by
    refine ordered_eq (Text.starts_sorted insecure p.1) fun j => ?_
    rw [SourceFile.lineViolations] at hne hcolumns
    split_ifs at hne hcolumns
    · exact absurd rfl hne
    · rw [hcolumns, SourceFile.lineLinks, List.map_map]
      exact Iff.rfl
  have hterminator := (Text.cutLine_of_mem hp).isLineBreak_terminator
  rw [hstarts]
  split_ifs
  · rw [secureColumns_secured hterminator]
  · rw [secureColumns_starts]

/-- Securing the violations of a file in its text when some lines are secured already makes the
lines with violations secure as well, and leaves the other lines as they are. -/
theorem secureLines_securedWhere (hvs : ∀ v, v ∈ vs ↔ v ∈ f.violations w t) (chosen : ℕ → Bool) :
    ∃ n, secureLines (Text.pieces (securedWhere chosen t)) (columnsByLine vs) =
      .ok ((Text.cutLines t).zipIdx.map (fun p =>
        (if chosen p.2 || f.offends w t p.2 then secured p.1.1 else p.1.1) ++ p.1.2), n) := by
  have hline : ∀ v ∈ vs, 1 ≤ v.lineNumber := by
    intro v hv
    obtain ⟨p, k, -, hv⟩ := SourceFile.exists_line_of_mem_violations ((hvs v).1 hv)
    rw [SourceFile.lineNumber_of_mem_lineViolations hv]
    omega
  obtain ⟨n, hok⟩ := secureLines_reported hline (securedWhere chosen t)
  refine ⟨n, hok.trans (congrArg (fun pieces => Except.ok (pieces, n)) ?_)⟩
  refine List.ext_getElem? fun k => ?_
  simp only [List.getElem?_map, List.getElem?_zipIdx, cutLines_securedWhere, Nat.zero_add]
  rcases hp : (Text.cutLines t)[k]? with _ | p
  · rfl
  have hcolumns : ∀ j, j ∈ Groups.get ((k + 1 : ℕ) : ℤ) (columnsByLine vs) ↔
      j ∈ (f.lineViolations w (p, k)).map Violation.columnOffset := by
    intro j
    simp only [mem_get_columnsByLine, List.mem_map, SourceFile.mem_violations_of_line hp, hvs,
      and_assoc]
  have hoffends := SourceFile.offends_of_line (w := w) (f := f) hp
  simp only [Option.map_some, reportedLine]
  by_cases hnone : f.lineViolations w (p, k) = []
  · have hget : Groups.get ((k + 1 : ℕ) : ℤ) (columnsByLine vs) = [] :=
      List.eq_nil_iff_forall_not_mem.2 fun j hj => by simpa [hnone] using (hcolumns j).1 hj
    rw [hget, ordered_nil, secureColumns, hoffends]
    simp [hnone]
  · rw [secureColumns_partly (List.mem_of_getElem? hp) hnone hcolumns, hoffends]
    simp [hnone]

/-- Replacing the violations of a file in its text when some lines are secured already. -/
theorem inText_securedWhere {mark : Text} (hmark : mark = [Utf8.byteOrderMarkChar] ∨
    mark = [] ∧ t.head? ≠ some Utf8.byteOrderMarkChar)
    (hvs : ∀ v, v ∈ vs ↔ v ∈ f.violations w t) (chosen : ℕ → Bool) :
    ∃ n, inText (mark ++ securedWhere chosen t) vs =
      .ok (mark ++ securedWhere (fun k => chosen k || f.offends w t k) t, n) := by
  obtain ⟨n, hlines⟩ := secureLines_securedWhere hvs chosen
  refine ⟨n, ?_⟩
  rw [inText, cutMark_append (by rwa [head_securedWhere])]
  dsimp only
  rw [hlines, securedWhere, Text.changeLines, List.flatMap_def]
  rfl

end Secured

end Replace

end InsecureLinks
