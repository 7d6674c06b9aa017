import Mathlib
import InsecureLinks.Proofs.Outcome
import InsecureLinks.Proofs.Text.Blank
import InsecureLinks.Proofs.Text.Field
import InsecureLinks.Proofs.Text.WideLine
import InsecureLinks.Whitelist.Basic

/-!
# What is read from a whitelist

A whitelist that is read holds an entry for some of its lines and nothing else
(`Whitelist.parse_of_mem_ofText`).  The path of such an entry has no line break in it, since the
line has none, and there is no way to write the content of a line (`Whitelist.IsRead.isWritten`).
A zero may stand in the path.
-/

namespace InsecureLinks

/-! ## Entries -/

namespace WhitelistEntry

theorem collapseSlashes_subset (t : Text) : collapseSlashes t ⊆ t := by
  induction t using collapseSlashes.induct with
  | case1 t ih =>
    rw [collapseSlashes]
    exact List.subset_cons_of_subset _ ih
  | case2 c t hslashes ih =>
    rw [collapseSlashes.eq_2 _ _ hslashes]
    exact List.cons_subset_cons _ ih
  | case3 => exact List.Subset.refl _

theorem dropHere_subset (t : Text) : dropHere t ⊆ t := by
  induction t using dropHere.induct with
  | case1 t ih =>
    rw [dropHere]
    exact List.subset_cons_of_subset _ (List.subset_cons_of_subset _ ih)
  | case2 t ht =>
    rw [dropHere.eq_2 t ht]
    exact List.Subset.refl _

/-- A normalised path has no characters but those of the path and slashes. -/
theorem mem_normalizePath {c : Char} {path : Text} (h : c ∈ normalizePath path) :
    c ∈ path ∨ c = '/' := by
  have hmap := collapseSlashes_subset _ (dropHere_subset _ h)
  obtain ⟨d, hd, rfl⟩ := List.mem_map.1 hmap
  split_ifs
  · exact .inr rfl
  · exact .inl (path.strip_subset hd)

/-- Whether an entry is of the kind that is written in whitelists: its path is on one line, and it
does not ask for the content of a line. -/
structure IsWritten (e : WhitelistEntry) : Prop where
  pattern : ∀ c ∈ e.filePattern, Text.isWideBreak c = false
  content : e.lineContent = none

theorem isWritten_of_ofPath {line path : Text} {n : Option ℤ} {e : WhitelistEntry}
    (h : ofPath line path n = .ok e) (hpath : ∀ c ∈ path, Text.isWideBreak c = false) :
    e.IsWritten := by
  rw [ofPath] at h
  split_ifs at h
  cases h
  refine ⟨fun c hc => ?_, rfl⟩
  rcases mem_normalizePath hc with hc | rfl
  · exact hpath c hc
  · decide

/-- An entry that is read from one line is of the kind that is written. -/
theorem isWritten_of_parse {line : Text} {e : WhitelistEntry} (h : parse line = .ok e)
    (hline : ∀ c ∈ line, Text.isWideBreak c = false) : e.IsWritten := by
  have hstrip : ∀ c ∈ line.strip, Text.isWideBreak c = false :=
    fun c hc => hline c (line.strip_subset hc)
  rw [parse] at h
  rcases hcut : Text.cutLast? ':' line.strip with _ | ⟨path, number⟩
  · rw [hcut] at h
    exact isWritten_of_ofPath h hstrip
  · rw [hcut] at h
    obtain ⟨n, -, h⟩ := bind_eq_ok.1 h
    refine isWritten_of_ofPath h fun c hc => hstrip c ?_
    rw [Text.eq_of_cutLast? hcut]
    exact List.mem_append_left _ hc

/-- Whether a line asks for a line number with more digits than a number may have. -/
def HasLongNumber (line : Text) : Prop :=
  ∃ path number, Text.cutLast? ':' line.strip = some (path, number) ∧
    number.strip.all Text.isAsciiDigit = true ∧ Literal.maxDigits < number.strip.length

end WhitelistEntry

/-! ## Whitelists -/

namespace Whitelist

variable {w w' : Whitelist} {e : WhitelistEntry}

/-- A line adds at most the entry that is read from it. -/
theorem parse_of_mem_addLine {n : ℕ} {raw : Text} (h : addLine w n raw = .ok w')
    (he : e ∈ w'.entries) : e ∈ w.entries ∨ WhitelistEntry.parse raw.strip = .ok e := by
  rw [addLine] at h
  dsimp only at h
  split_ifs at h
  · cases h
    exact .inl he
  · split at h
    · next e' hparse =>
      cases h
      rcases List.mem_append.1 he with he | he
      · exact .inl he
      · exact .inr (List.mem_singleton.1 he ▸ hparse)
    · cases h
    · cases h
      exact .inl he

theorem parse_of_mem_addLines {lines : List Text} {n : ℕ} (h : addLines w n lines = .ok w')
    (he : e ∈ w'.entries) :
    e ∈ w.entries ∨ ∃ line ∈ lines, WhitelistEntry.parse line.strip = .ok e := by
  induction lines generalizing w n with
  | nil =>
    cases h
    exact .inl he
  | cons line lines ih =>
    obtain ⟨w₁, hline, hlines⟩ := bind_eq_ok.1 h
    rcases ih hlines with he | ⟨l, hl, hparse⟩
    · rcases parse_of_mem_addLine hline he with he | hparse
      · exact .inl he
      · exact .inr ⟨line, List.mem_cons_self .., hparse⟩
    · exact .inr ⟨l, List.mem_cons_of_mem _ hl, hparse⟩

/-- Every entry of a whitelist is read from one of its lines. -/
theorem parse_of_mem_ofText {source content : Text} (h : ofText source content = .ok w)
    (he : e ∈ w.entries) :
    ∃ line ∈ Text.wideLines content, WhitelistEntry.parse line.strip = .ok e := by
  rcases parse_of_mem_addLines h he with he | hline
  · cases he
  · exact hline

/-- Whether a whitelist has been read from a text. -/
def IsRead (w : Whitelist) : Prop := ∃ source content, ofText source content = .ok w

theorem IsRead.isWritten (h : w.IsRead) (he : e ∈ w.entries) : e.IsWritten := by
  obtain ⟨source, content, hread⟩ := h
  obtain ⟨line, hline, hparse⟩ := parse_of_mem_ofText hread he
  exact WhitelistEntry.isWritten_of_parse hparse fun c hc =>
    Text.not_isWideBreak_of_mem_wideLines hline (line.strip_subset hc)

/-! ## Faults -/

end Whitelist

end InsecureLinks
