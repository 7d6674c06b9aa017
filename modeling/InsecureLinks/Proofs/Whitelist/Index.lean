import Mathlib
import InsecureLinks.Proofs.Grouping
import InsecureLinks.Whitelist.Basic

/-!
# What a whitelist allows

`Whitelist.Allows` says when some entry of a whitelist allows a violation.  A scan asks the index
of the whitelist instead, which compares the violation with the entries for its own file only; the
answer is the same (`filter_index`).  Neither the order of the entries nor how often each of them is
there matters to it, and entries that are added take away what they allow by themselves
(`index_agrees`).
-/

namespace InsecureLinks

namespace WhitelistEntry

theorem matchesLine_iff (e : WhitelistEntry) (v : Violation) :
    e.matchesLine v = true ↔
      (e.lineNumber = none ∨ e.lineNumber = some v.lineNumber) ∧
        (e.lineContent = none ∨ e.lineContent = some v.lineText.strip) := by
  rw [matchesLine, Bool.and_eq_true]
  refine and_congr ?_ ?_
  · rcases e.lineNumber with _ | n
    · simp
    · simp
  · rcases e.lineContent with _ | t
    · simp
    · simp

end WhitelistEntry

namespace Whitelist

/-- Whether some entry is for the file of a violation, for its line or for every line, and for its
text without the blanks around it or for every text. -/
def Allows (w : Whitelist) (v : Violation) : Prop :=
  ∃ e ∈ w.entries, e.filePattern = v.filePath ∧
    (e.lineNumber = none ∨ e.lineNumber = some v.lineNumber) ∧
    (e.lineContent = none ∨ e.lineContent = some v.lineText.strip)

instance (w : Whitelist) (v : Violation) : Decidable (w.Allows v) :=
  inferInstanceAs (Decidable (∃ e ∈ w.entries, _))

theorem covers_iff (w : Whitelist) (v : Violation) : w.covers v = true ↔ w.Allows v := by
  rw [covers, List.any_eq_true]
  refine exists_congr fun e => and_congr_right fun _ => ?_
  rw [WhitelistEntry.covers, Bool.and_eq_true, decide_eq_true_iff, e.matchesLine_iff]

theorem covers_index (w : Whitelist) (v : Violation) :
    Index.covers w.index v = true ↔ w.Allows v := by
  rw [Index.covers, index, Groups.get_of, List.any_filter, List.any_eq_true]
  refine exists_congr fun e => and_congr_right fun _ => ?_
  rw [Bool.and_eq_true, decide_eq_true_iff, e.matchesLine_iff]

/-- What is left of some violations is what no entry allows. -/
theorem filter_index (w : Whitelist) (vs : List Violation) :
    Index.filter w.index vs = vs.filter fun v => ¬w.Allows v := by
  have hcovers : (fun v => !Index.covers w.index v) = fun v => decide (¬w.Allows v) := by
    funext v
    rw [Bool.eq_iff_iff, decide_eq_true_iff, Bool.not_eq_true', ← covers_index, Bool.not_eq_true]
  rw [Index.filter, hcovers]
  split
  · next hempty =>
    -- An index without groups comes from a whitelist without entries.
    have hnil : w.index = [] := List.isEmpty_iff.1 hempty
    have hentries : w.entries = [] := (Groups.of_eq_nil_iff _ _).1 hnil
    have hnone : ∀ v, ¬w.Allows v := by
      intro v
      simp [Allows, hentries]
    simp [hnone]
  · rfl

/-! ## More entries, and the same ones again -/

/-- A whitelist with more entries allows what it did and what they are for. -/
theorem allows_withEntries (w : Whitelist) (more : List WhitelistEntry) (v : Violation) :
    (w.withEntries more).Allows v ↔ w.Allows v ∨ Allows ⟨more, [], []⟩ v := by
  simp only [Allows, withEntries, List.mem_append, or_and_right, exists_or]

theorem allows_congr {w w' : Whitelist} (h : ∀ e, e ∈ w'.entries ↔ e ∈ w.entries) (v : Violation) :
    w'.Allows v ↔ w.Allows v := by
  simp only [Allows, h]

theorem filter_withEntries (w u : Whitelist) (vs : List Violation) :
    Index.filter (w.withEntries u.entries).index vs =
      Index.filter u.index (Index.filter w.index vs) := by
  rw [filter_index, filter_index, filter_index, List.filter_filter]
  apply List.filter_congr
  intro v _
  have hmore : Allows ⟨u.entries, [], []⟩ v ↔ u.Allows v := Iff.rfl
  rw [Bool.eq_iff_iff, Bool.and_eq_true, decide_eq_true_iff, decide_eq_true_iff, decide_eq_true_iff,
    allows_withEntries, hmore, not_or, and_comm]

/-- The index of a whitelist answers as a pass over its entries does, and as the index of any other
whitelist with the same entries, in whatever order and however often.  It leaves the violations that
no entry allows, as they were, and with more entries what these by themselves leave of that. -/
theorem index_agrees {w w' : Whitelist} (hsame : ∀ e, e ∈ w'.entries ↔ e ∈ w.entries) :
    (∀ v, (Index.covers w.index v = true ↔ w.Allows v) ∧ Index.covers w.index v = w.covers v ∧
      Index.covers w'.index v = Index.covers w.index v ∧ w'.covers v = w.covers v) ∧
    (∀ vs, Index.filter w.index vs = vs.filter fun v => !w.covers v) ∧
    ∀ (u : Whitelist) (vs : List Violation), Index.filter (w.withEntries u.entries).index vs =
      Index.filter u.index (Index.filter w.index vs) := by
  have hplain : ∀ (u : Whitelist) (v : Violation), Index.covers u.index v = u.covers v := by
    intro u v
    rw [Bool.eq_iff_iff, covers_index, covers_iff]
  have hcovers : ∀ v, w'.covers v = w.covers v := by
    intro v
    rw [Bool.eq_iff_iff, covers_iff, covers_iff, allows_congr hsame]
  refine ⟨fun v => ⟨covers_index w v, hplain w v, ?_, hcovers v⟩, fun vs => ?_, filter_withEntries w⟩
  · rw [hplain, hplain, hcovers]
  · rw [filter_index]
    apply List.filter_congr
    intro v _
    rw [Bool.eq_iff_iff, decide_eq_true_iff, Bool.not_eq_true', ← covers_iff, Bool.not_eq_true]

/-- Entries for every line of a file with some content, and for one line of another file. -/
def twoEntries : Whitelist :=
  ⟨[⟨"a".toList, none, some "x".toList⟩, ⟨"b".toList, some 2, none⟩], [], []⟩

/-- The same entries the other way round, one of them twice. -/
def threeEntries : Whitelist :=
  ⟨[⟨"b".toList, some 2, none⟩, ⟨"a".toList, none, some "x".toList⟩, ⟨"b".toList, some 2, none⟩],
    [], []⟩

theorem index_agrees_threeEntries :
    (∀ e, e ∈ threeEntries.entries ↔ e ∈ twoEntries.entries) ∧
    (∀ v, (Index.covers twoEntries.index v = true ↔ twoEntries.Allows v) ∧
      Index.covers twoEntries.index v = twoEntries.covers v ∧
      Index.covers threeEntries.index v = Index.covers twoEntries.index v ∧
      threeEntries.covers v = twoEntries.covers v) ∧
    (∀ vs, Index.filter twoEntries.index vs = vs.filter fun v => !twoEntries.covers v) ∧
    ∀ (u : Whitelist) (vs : List Violation),
      Index.filter (twoEntries.withEntries u.entries).index vs =
        Index.filter u.index (Index.filter twoEntries.index vs) := by
  have hsame : ∀ e, e ∈ threeEntries.entries ↔ e ∈ twoEntries.entries := by
    intro e
    simp only [threeEntries, twoEntries, List.mem_cons, List.not_mem_nil, or_false]
    tauto
  exact ⟨hsame, index_agrees hsame⟩

end Whitelist

end InsecureLinks
