import Mathlib
import InsecureLinks.Proofs.Replace.File
import InsecureLinks.Proofs.Text.Position

/-!
# Securing a text at some places

`SecuresAt places t u` says that `u` is `t` with the links at those places made secure and nothing
else changed.  It says so of whole texts, where replacing goes from line to line and inside a line
from the last column to the first, each change being made to what the one before has left.

Whatever columns a line is secured at, those at which no link stands are passed over and the others
are the places (`exists_securesAt_columns`).  A link begins with a letter that does not come again
in it, so neither a link nor what takes its place reaches into one that stands further left.
-/

namespace InsecureLinks.Replace

/-- Whether a text becomes another one by making the links at some places secure, from left to
right. -/
inductive SecuresAt : List ℕ → Text → Text → Prop
  | done (t : Text) : SecuresAt [] t t
  | link (a : Text) {places : List ℕ} {t u : Text} (rest : SecuresAt places t u) :
      SecuresAt (a.length :: places.map (a.length + 7 + ·)) (a ++ insecure ++ t) (a ++ secure ++ u)

namespace SecuresAt

variable {places places' : List ℕ} {t t' u u' : Text}

theorem single (a t : Text) : SecuresAt [a.length] (a ++ insecure ++ t) (a ++ secure ++ t) :=
  link a (done t)

/-- Places are named in order. -/
theorem sorted (h : SecuresAt places t u) : places.Pairwise (· < ·) := by
  induction h with
  | done t => exact List.Pairwise.nil
  | link a rest ih =>
    refine List.pairwise_cons.2 ⟨?_, ih.map _ fun p q hpq => by omega⟩
    intro q hq
    obtain ⟨p, -, rfl⟩ := List.mem_map.1 hq
    omega

/-- A text grows by one character at each place. -/
theorem length_eq (h : SecuresAt places t u) : u.length = t.length + places.length := by
  induction h with
  | done t => rfl
  | link a rest ih =>
    simp only [List.length_append, List.length_cons, List.length_map, ih,
      show insecure.length = 7 from rfl, show secure.length = 8 from rfl]
    omega

theorem eq_nil (h : SecuresAt places t u) (ht : t = []) : places = [] := by
  cases h with
  | done => rfl
  | link a rest => simp [insecure] at ht

theorem prepend (a : Text) (h : SecuresAt places t u) :
    SecuresAt (places.map (a.length + ·)) (a ++ t) (a ++ u) := by
  cases h with
  | done => exact done (a ++ t)
  | link b rest =>
    have hlink := link (a ++ b) rest
    simp only [List.length_append, List.append_assoc, Nat.add_assoc] at hlink
    simpa only [List.map_cons, List.map_map, Function.comp_def, List.append_assoc,
      Nat.add_assoc] using hlink

/-- Two texts are secured one after the other. -/
theorem append (h : SecuresAt places t u) (h' : SecuresAt places' t' u') :
    SecuresAt (places ++ places'.map (t.length + ·)) (t ++ t') (u ++ u') := by
  induction h with
  | done t => exact h'.prepend t
  | @link a places t u rest ih =>
    have hlink := link a ih
    have hlength : (a ++ insecure ++ t).length = a.length + 7 + t.length := by
      rw [List.length_append, List.length_append]
      rfl
    rw [hlength]
    simpa only [List.map_append, List.map_map, Function.comp_def, List.append_assoc,
      List.cons_append, Nat.add_assoc] using hlink

end SecuresAt

/-! ## The columns of a line -/

/-- A link does not reach over what begins with its first letter. -/
theorem insecure_prefix_of_append {a u : Text} {k : ℕ} (hk : k < a.length)
    (h : insecure <+: (a ++ 'h' :: u).drop k) : insecure <+: a.drop k := by
  rw [List.drop_append_of_le_length hk.le, List.drop_eq_getElem_cons hk, List.cons_append] at h
  rw [List.drop_eq_getElem_cons hk]
  obtain ⟨hfirst, hrest⟩ := List.cons_prefix_cons.1 h
  exact List.cons_prefix_cons.2 ⟨hfirst, Text.prefix_of_prefix_append_cons (by decide) hrest⟩

/-- A link that stands somewhere splits the text. -/
theorem exists_append_of_prefix_drop {t : Text} {k : ℕ} (h : insecure <+: t.drop k) :
    ∃ a b, t = a ++ insecure ++ b ∧ a.length = k := by
  obtain ⟨b, hb⟩ := h
  refine ⟨t.take k, b, by rw [List.append_assoc, hb, List.take_append_drop], ?_⟩
  rw [List.length_take, min_eq_left]
  by_contra hlong
  rw [List.drop_eq_nil_of_le (by omega)] at hb
  simp [insecure] at hb

/-- Securing a line at some columns, from the last to the first, makes those links secure that
stand at one of them.  What follows the line does not matter if no link reaches into it. -/
theorem exists_securesAt_columns {line rest : Text} {ks : List ℕ} (hks : ks.Pairwise (· > ·))
    (hreach : ∀ k ∈ ks, insecure <+: (line ++ rest).drop k → insecure <+: line.drop k) :
    ∃ places changed,
      secureColumns (line ++ rest) (ks.map fun (k : ℕ) => (k : ℤ)) =
        (changed ++ rest, places.length) ∧
      SecuresAt places line changed ∧
      ∀ p, p ∈ places ↔ p ∈ ks ∧ insecure <+: line.drop p := by
  induction ks generalizing line rest with
  | nil => exact ⟨[], line, rfl, .done line, by simp⟩
  | cons k ks ih =>
    obtain ⟨hk, hsorted⟩ := List.pairwise_cons.1 hks
    obtain ⟨hreachk, hreachks⟩ := List.forall_mem_cons.1 hreach
    rw [List.map_cons, secureColumns]
    by_cases hstands : insecure <+: line.drop k
    · -- The line is cut at the link.  Further columns are left of it.
      obtain ⟨a, b, rfl, rfl⟩ := exists_append_of_prefix_drop hstands
      obtain ⟨places, changed, hcolumns, hsecures, hplaces⟩ :=
        @ih a (secure ++ (b ++ rest)) hsorted fun j hj => insecure_prefix_of_append (hk j hj)
      refine ⟨places ++ [a.length], changed ++ (secure ++ b), ?_, ?_, ?_⟩
      · rw [List.append_assoc (a ++ insecure), secureAt?_append, List.append_assoc a]
        simp only [hcolumns, List.append_assoc, List.length_append, List.length_singleton]
      · have hlast : SecuresAt [0] (insecure ++ b) (secure ++ b) := .single [] b
        simpa only [List.append_assoc, List.map_singleton, Nat.add_zero] using hsecures.append hlast
      · intro p
        rw [List.mem_append, List.mem_singleton, hplaces, List.mem_cons, List.append_assoc]
        constructor
        · rintro (⟨hp, hprefix⟩ | rfl)
          · exact ⟨.inr hp, hprefix.trans ((List.prefix_append a _).drop p)⟩
          · exact ⟨.inl rfl, by rw [List.drop_left]; exact List.prefix_append _ _⟩
        · rintro ⟨rfl | hp, hprefix⟩
          · exact .inr rfl
          · exact .inl ⟨hp, insecure_prefix_of_append (hk p hp) hprefix⟩
    · rw [secureAt?_of_absent (mt hreachk hstands)]
      obtain ⟨places, changed, hcolumns, hsecures, hplaces⟩ := ih hsorted hreachks
      refine ⟨places, changed, hcolumns, hsecures, fun p => ?_⟩
      rw [hplaces, List.mem_cons]
      constructor
      · rintro ⟨hp, hprefix⟩
        exact ⟨.inr hp, hprefix⟩
      · rintro ⟨rfl | hp, hprefix⟩
        · exact absurd hprefix hstands
        · exact ⟨hp, hprefix⟩

end InsecureLinks.Replace
