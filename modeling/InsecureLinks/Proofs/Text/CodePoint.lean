import Mathlib
import InsecureLinks.Files.RawPath
import InsecureLinks.Proofs.Text.Field

/-!
# Texts as code points

What is done with code points is, on the code points of a text, what is done with the text: no two
texts have the same code points (`RawText.ofText_injective`), and blanks are stripped
(`RawText.strip_ofText`) and paths are put together (`RawPath.joined_ofText`) in the same way.
-/

namespace InsecureLinks

theorem CodePoint.ofChar_injective : Function.Injective CodePoint.ofChar := by
  intro c d h
  have hcode : c.toNat = d.toNat := Fin.mk.inj h
  exact Char.toNat_inj.1 hcode

namespace Text

variable {α β : Type} [DecidableEq α] [DecidableEq β] {f : α → β}

/-- Fields are cut at the same places under another alphabet. -/
theorem fields_map (hf : Function.Injective f) (sep : α) (t : List α) :
    fields (f sep) (t.map f) = (fields sep t).map (·.map f) := by
  induction t with
  | nil => rfl
  | cons c t ih =>
    rw [List.map_cons, fields, fields, ih]
    by_cases hc : c = sep
    · rw [if_pos hc, if_pos (congrArg f hc)]
      rfl
    · rw [if_neg hc, if_neg fun h => hc (hf h)]
      rcases fields sep t with _ | ⟨g, gs⟩
      · rfl
      · rfl

omit [DecidableEq α] [DecidableEq β] in
theorem join_map (sep : List α) (ts : List (List α)) :
    join (sep.map f) (ts.map (·.map f)) = (join sep ts).map f := by
  induction ts with
  | nil => rfl
  | cons t ts ih =>
    rcases ts with _ | ⟨u, us⟩
    · rfl
    · rw [List.map_cons, List.map_cons, join, ← List.map_cons, ih, join, List.map_append,
        List.map_append]

end Text

namespace RawText

theorem ofText_injective : Function.Injective ofText :=
  List.map_injective_iff.2 CodePoint.ofChar_injective

theorem ofText_append (t u : Text) : ofText (t ++ u) = ofText t ++ ofText u := List.map_append

theorem ofText_eq_nil_iff {t : Text} : ofText t = [] ↔ t = [] := List.map_eq_nil_iff

/-- The blanks among code points are those among characters. -/
theorem strip_ofText (t : Text) : (ofText t).strip = ofText t.strip := by
  have hblank : CodePoint.isBlank ∘ CodePoint.ofChar = Text.isBlank := rfl
  rw [strip, Text.strip, Text.stripRight, Text.stripLeft, ofText, ofText, List.dropWhile_map, hblank,
    ← List.map_reverse, List.dropWhile_map, hblank, List.map_reverse]

end RawText

namespace RawPath

open RawText

theorem namesOf_ofText (t : Text) : namesOf (ofText t) = (Path.namesOf t).map ofText := by
  have hkept : (fun n : RawText => decide (n ≠ [] ∧ n ≠ dot)) ∘ ofText =
      fun n => decide (n ≠ [] ∧ n ≠ Path.dot) := by
    funext n
    have hdot : ofText n = dot ↔ n = Path.dot := ofText_injective.eq_iff
    simp only [Function.comp_apply, ne_eq, ofText_eq_nil_iff, hdot]
  rw [namesOf, Path.namesOf, slash, ofText, Text.fields_map CodePoint.ofChar_injective,
    List.filter_map]
  exact congrArg (List.map ofText) (congrArg (List.filter · _) hkept)

theorem startOf_ofText (t : Text) : startOf (ofText t) = Path.startOf t := by
  have hslash : (fun c => decide (c = slash)) ∘ CodePoint.ofChar = fun c => decide (c = '/') := by
    funext c
    have hc : CodePoint.ofChar c = slash ↔ c = '/' := CodePoint.ofChar_injective.eq_iff
    simp only [Function.comp_apply, hc]
  rw [startOf, Path.startOf, ofText, List.takeWhile_map, hslash, List.length_map]

theorem written_ofText (start : PathStart) (names : List Text) :
    written start (names.map ofText) = ofText (Path.text ⟨start, names⟩) := by
  have hjoin : Text.join [slash] (names.map ofText) = ofText (Text.join ['/'] names) :=
    Text.join_map ['/'] names
  cases start with
  | here =>
    rcases names with _ | ⟨n, names⟩
    · rfl
    · exact (congrArg (ofText [] ++ ·) hjoin).trans (ofText_append _ _).symm
  | top | topTwice => exact (congrArg (ofText _ ++ ·) hjoin).trans (ofText_append _ _).symm

/-- Paths are put together code point by code point as they are name by name. -/
theorem joined_ofText (root filePath : Text) :
    joined (ofText root) (ofText filePath) = ofText ((Path.ofText root).join filePath).text := by
  rw [joined, startOf_ofText, startOf_ofText, namesOf_ofText, namesOf_ofText, ← List.map_append,
    written_ofText, Path.join, Path.append]
  rcases hstart : Path.startOf filePath with _ | _ | _
  · simp only [Path.isAbsolute, Path.ofText, hstart]
    rfl
  · simp only [Path.isAbsolute, Path.ofText, hstart, written_ofText]
    rfl
  · simp only [Path.isAbsolute, Path.ofText, hstart, written_ofText]
    rfl

end RawPath

end InsecureLinks
