import Mathlib
import InsecureLinks.Proofs.Document.JsonScalar
import InsecureLinks.Proofs.Text.Field

/-!
# JSON read back

What is written for a document is read back as that document (`read_text`).  A document is followed by
other text, so it is read back wherever a document may stand (`IsReread`): a word or a number by itself,
and a list or a map by its elements, each being followed by a comma or by the bracket at the end.
-/

namespace InsecureLinks.Json

open Binary64 (finite)
open Decimal (Numeral signText)
open Literal (nearest)
open Text (isAsciiDigit natural)

/-! ## What JSON has -/

/-- Whether a document is one that JSON has: its keys are texts, each there once, and its numbers have
no more digits than are read. -/
inductive IsJson : Value → Prop
  | null : IsJson .null
  | bool (b : Bool) : IsJson (.bool b)
  | int {i : ℤ} (h : i.natAbs < 10 ^ Literal.maxDigits) : IsJson (.int i)
  | real {x : Binary64} (h : x.IsDouble) : IsJson (.real x)
  | text (t : Text) : IsJson (.text t)
  | list {xs : List Value} (h : ∀ x ∈ xs, IsJson x) : IsJson (.list xs)
  | map {entries : List (Text × Value)} (hkeys : (entries.map Prod.fst).Nodup)
      (h : ∀ p ∈ entries, IsJson p.2) : IsJson (.map (entries.map fun p => (.text p.1, p.2)))

@[simp] theorem skip_space (t : Text) : skip (' ' :: t) = skip t := rfl

theorem skip_cons {c : Char} (hc : isSpace c = false) (t : Text) : skip (c :: t) = c :: t := by
  simp [skip, hc]

/-- How a finite number is written. -/
theorem realText_eq {n : Bool} {m : ℕ} {e : ℤ} (hx : (finite n m e).IsDouble) :
    ∃ w : Numeral, realText (finite n m e) = signText n ++ w.text ∧
      nearest n w.digits w.place = finite n m e :=
  Decimal.exists_numeral_of_shortest hx

/-- Whether a text begins as that of a document does. -/
def Opens (t : Text) : Prop := ∃ c u, t = c :: u ∧ isSpace c = false ∧ c ≠ ']' ∧ c ≠ '\x7d'

theorem opens_signText (n : Bool) {t : Text} (h : BeginsWithDigit t) : Opens (signText n ++ t) := by
  obtain ⟨c, u, rfl, hc⟩ := h
  cases n
  · have hne {d : Char} (hd : isAsciiDigit d = false) : c ≠ d := (isAsciiDigit_ne hc hd).symm
    refine ⟨c, u, rfl, ?_, hne rfl, hne rfl⟩
    simp [isSpace, hne (d := ' ') rfl, hne (d := '\t') rfl, hne (d := '\n') rfl,
      hne (d := '\r') rfl]
  · exact ⟨'-', _, rfl, by decide, by decide, by decide⟩

theorem opens_text {x : Value} (h : IsJson x) : Opens (text x) := by
  cases h with
  | null => exact ⟨'n', _, rfl, by decide, by decide, by decide⟩
  | bool b =>
    cases b
    · exact ⟨'f', _, rfl, by decide, by decide, by decide⟩
    · exact ⟨'t', _, rfl, by decide, by decide, by decide⟩
  | @int i _ =>
    rw [text, integer_eq, ← List.append_nil (natural _)]
    exact opens_signText _ (beginsWithDigit_natural i.natAbs [])
  | @real x hx =>
    rw [text]
    cases x with
    | finite n m e =>
      obtain ⟨w, hw, -⟩ := realText_eq hx
      rw [hw, ← List.append_nil w.text]
      exact opens_signText n (beginsWithDigit_numeral w [])
    | infinite n =>
      cases n
      · exact ⟨'I', _, rfl, by decide, by decide, by decide⟩
      · exact ⟨'-', _, rfl, by decide, by decide, by decide⟩
    | undefined => exact ⟨'N', _, rfl, by decide, by decide, by decide⟩
  | text t => exact ⟨'"', _, rfl, by decide, by decide, by decide⟩
  | list h => exact ⟨'[', _, rfl, by decide, by decide, by decide⟩
  | map hkeys h => exact ⟨'\x7b', _, rfl, by decide, by decide, by decide⟩

theorem Opens.append {t : Text} (h : Opens t) (rest : Text) : Opens (t ++ rest) := by
  obtain ⟨c, u, rfl, hspace, hbracket, hbrace⟩ := h
  exact ⟨c, u ++ rest, rfl, hspace, hbracket, hbrace⟩

theorem Opens.skip_eq {t : Text} (h : Opens t) : skip t = t := by
  obtain ⟨c, u, rfl, hspace, -⟩ := h
  exact skip_cons hspace u

theorem Opens.length_pos {t : Text} (h : Opens t) : 0 < t.length := by
  obtain ⟨c, u, rfl, -⟩ := h
  exact Nat.succ_pos _

/-- Whether a document is read back wherever a document may stand. -/
def IsReread (x : Value) : Prop :=
  ∀ fuel rest, (text x).length ≤ fuel → Ends rest → value? fuel (text x ++ rest) = some (x, rest)

theorem isReread_of_plain {x : Value} (hx : IsJson x)
    (h : ∀ fuel rest, Ends rest → value? (fuel + 1) (text x ++ rest) = some (x, rest)) :
    IsReread x := by
  intro fuel rest hfuel hrest
  have hpos := (opens_text hx).length_pos
  obtain ⟨fuel, rfl⟩ : ∃ k, fuel = k + 1 := ⟨fuel - 1, by omega⟩
  exact h fuel rest hrest

theorem isReread_int {i : ℤ} (hi : i.natAbs < 10 ^ Literal.maxDigits) : IsReread (.int i) := by
  refine isReread_of_plain (.int hi) fun _ _ hrest => ?_
  rw [← number?_integer hi hrest, text, integer_eq, List.append_assoc]
  exact value?_signText _ _ (beginsWithDigit_natural i.natAbs _)

theorem isReread_real {x : Binary64} (hx : x.IsDouble) : IsReread (.real x) := by
  refine isReread_of_plain (.real hx) fun _ rest hrest => ?_
  rw [text]
  cases x with
  | finite n m e =>
    obtain ⟨w, hw, hnearest⟩ := realText_eq hx
    rw [← hnearest, ← number?_numeral n w hrest, hnearest, hw, List.append_assoc]
    exact value?_signText _ n (beginsWithDigit_numeral w rest)
  | infinite n =>
    cases n
    · rfl
    · rfl
  | undefined => rfl

theorem isReread_text (t : Text) : IsReread (.text t) := by
  refine isReread_of_plain (.text t) fun _ rest _ => ?_
  have hlength := length_le_length_flatMap t
  rw [text, quoted, List.append_assoc, List.cons_append, value?, List.singleton_append,
    untilQuote?_quoted (by rw [List.length_append]; omega)]
  rfl

/-! ## Lists -/

/-- The text between the elements of a list. -/
def comma : Text := ", ".toList

theorem ends_of_close {c : Char} (hc : c = ']' ∨ c = '\x7d' ∨ c = ',') (rest : Text) :
    Ends (c :: rest) := by
  rintro d ⟨⟩
  rcases hc with rfl | rfl | rfl
  · exact ⟨rfl, by decide, by decide, by decide⟩
  · exact ⟨rfl, by decide, by decide, by decide⟩
  · exact ⟨rfl, by decide, by decide, by decide⟩

theorem opens_join {ts : List Text} (hne : ts ≠ []) (h : ∀ t ∈ ts, Opens t) (s : Text) :
    Opens (Text.join s ts) := by
  obtain ⟨t, ts, rfl⟩ := List.exists_cons_of_ne_nil hne
  have ht : Opens t := h t List.mem_cons_self
  rcases ts with _ | ⟨u, ts⟩
  · exact ht
  · rw [Text.join, List.append_assoc]
    exact ht.append _

theorem join_comma_cons {ts : List Text} (hne : ts ≠ []) (t : Text) :
    Text.join comma (t :: ts) = t ++ ',' :: ' ' :: Text.join comma ts :=
  Text.join_cons hne comma

theorem texts_eq (xs : List Value) : texts xs = xs.map text := by
  induction xs with
  | nil => rfl
  | cons x xs ih => rw [texts, ih, List.map_cons]

theorem elements?_join {xs : List Value} (hne : xs ≠ []) (hjson : ∀ x ∈ xs, IsJson x)
    (hread : ∀ x ∈ xs, IsReread x) (fuel : ℕ) (rest : Text)
    (hfuel : (Text.join comma (xs.map text)).length < fuel) :
    elements? fuel (Text.join comma (xs.map text) ++ ']' :: rest) = some (xs, rest) := by
  induction xs generalizing fuel with
  | nil => exact absurd rfl hne
  | cons x xs ih =>
    obtain ⟨fuel, rfl⟩ : ∃ k, fuel = k + 1 := ⟨fuel - 1, by omega⟩
    have hx : IsReread x := hread x List.mem_cons_self
    rcases eq_or_ne xs [] with rfl | hxs
    · rw [List.map_singleton, Text.join] at hfuel ⊢
      rw [elements?, hx fuel _ (by omega) (ends_of_close (.inl rfl) rest)]
      rfl
    · rw [List.map_cons, join_comma_cons (by simpa using hxs)] at hfuel ⊢
      rw [List.length_append, List.length_cons, List.length_cons] at hfuel
      have hopens : Opens (Text.join comma (xs.map text)) :=
        opens_join (by simpa using hxs) (by
          intro t ht
          obtain ⟨y, hy, rfl⟩ := List.mem_map.1 ht
          exact opens_text (hjson y (List.mem_cons_of_mem x hy))) comma
      have hrest := ih hxs (fun y hy => hjson y (List.mem_cons_of_mem x hy))
        (fun y hy => hread y (List.mem_cons_of_mem x hy)) fuel (by omega)
      have hskip := (hopens.append (']' :: rest)).skip_eq
      rw [List.append_assoc, List.cons_append, List.cons_append, elements?,
        hx fuel _ (by omega) (ends_of_close (.inr (.inr rfl)) _)]
      simp [skip_cons, isSpace, hskip, hrest]

theorem isReread_list {xs : List Value} (hjson : ∀ x ∈ xs, IsJson x)
    (hread : ∀ x ∈ xs, IsReread x) : IsReread (.list xs) := by
  refine fun fuel rest hfuel _ => ?_
  have htext : text (.list xs) = '[' :: (Text.join comma (xs.map text) ++ [']']) := by
    rw [text, texts_eq]
    rfl
  rw [htext, List.length_cons, List.length_append, List.length_singleton] at hfuel
  obtain ⟨fuel, rfl⟩ : ∃ k, fuel = k + 1 := ⟨fuel - 1, by omega⟩
  rw [htext, List.cons_append, List.append_assoc, List.singleton_append]
  rcases eq_or_ne xs [] with rfl | hne
  · rfl
  · have hopens : Opens (Text.join comma (xs.map text)) :=
      opens_join (by simpa using hne) (by simpa using fun x hx => opens_text (hjson x hx)) comma
    obtain ⟨c, u, hcons, hspace, hbracket, -⟩ := hopens.append (']' :: rest)
    have helements := elements?_join hne hjson hread fuel rest (by omega)
    rw [hcons] at helements ⊢
    rw [value?, skip_cons hspace]
    simp [hbracket, helements]

/-! ## Maps -/

/-- What is written for an entry. -/
def entryText (p : Text × Value) : Text := quoted p.1 ++ ": ".toList ++ text p.2

theorem entryTexts_eq (entries : List (Text × Value)) :
    entryTexts (entries.map fun p => (.text p.1, p.2)) = entries.map entryText := by
  induction entries with
  | nil => rfl
  | cons p entries ih => rw [List.map_cons, entryTexts, ih, List.map_cons, entryText]

theorem opens_entryText (p : Text × Value) : Opens (entryText p) :=
  ⟨'"', _, rfl, by decide, by decide, by decide⟩

theorem opens_join_entryText {entries : List (Text × Value)} (hne : entries ≠ []) :
    Opens (Text.join comma (entries.map entryText)) := by
  refine opens_join (by simpa using hne) (fun t ht => ?_) comma
  obtain ⟨p, -, rfl⟩ := List.mem_map.1 ht
  exact opens_entryText p

theorem entries?_join {entries : List (Text × Value)} (hne : entries ≠ [])
    (hjson : ∀ p ∈ entries, IsJson p.2) (hread : ∀ p ∈ entries, IsReread p.2) (fuel : ℕ)
    (rest : Text)
    (hfuel : (Text.join comma (entries.map entryText)).length < fuel) :
    entries? fuel (Text.join comma (entries.map entryText) ++ '\x7d' :: rest) =
      some (entries, rest) := by
  induction entries generalizing fuel with
  | nil => exact absurd rfl hne
  | cons p entries ih =>
    obtain ⟨k, x⟩ := p
    obtain ⟨fuel, rfl⟩ : ∃ k, fuel = k + 1 := ⟨fuel - 1, by omega⟩
    have hx : IsReread x := hread (k, x) List.mem_cons_self
    have hopens : Opens (text x) := opens_text (hjson (k, x) List.mem_cons_self)
    have hkey := length_le_length_flatMap k
    have hentry : ∀ u, entryText (k, x) ++ u =
        '"' :: (k.flatMap quotedChar ++ '"' :: ':' :: ' ' :: (text x ++ u)) := by
      intro u
      simp [entryText, quoted]
    have huntil : ∀ u, untilQuote? ((k.flatMap quotedChar ++ '"' :: u).length + 1)
        (k.flatMap quotedChar ++ '"' :: u) = some (k, u) := fun u =>
      untilQuote?_quoted (by rw [List.length_append]; omega) u
    have hlength := congrArg List.length (hentry [])
    simp only [List.append_nil, List.length_cons, List.length_append] at hlength
    rcases eq_or_ne entries [] with rfl | hentries
    · rw [List.map_singleton, Text.join] at hfuel ⊢
      rw [hentry, entries?, huntil]
      simp [skip_cons, isSpace, (hopens.append _).skip_eq,
        hx fuel _ (by omega) (ends_of_close (.inr (.inl rfl)) rest)]
    · rw [List.map_cons, join_comma_cons (by simpa using hentries)] at hfuel ⊢
      rw [List.length_append, List.length_cons, List.length_cons] at hfuel
      have hskip := ((opens_join_entryText hentries).append ('\x7d' :: rest)).skip_eq
      have hrest := ih hentries (fun y hy => hjson y (List.mem_cons_of_mem _ hy))
        (fun y hy => hread y (List.mem_cons_of_mem _ hy)) fuel (by omega)
      rw [List.append_assoc, List.cons_append, List.cons_append, hentry, entries?, huntil]
      simp [skip_cons, isSpace, (hopens.append _).skip_eq, hskip, hrest,
        hx fuel _ (by omega) (ends_of_close (.inr (.inr rfl)) _)]

theorem setEntry_of_new {k : Text} {entries : List (Text × Value)} (hnew : k ∉ entries.map Prod.fst)
    (x : Value) : Value.setEntry (.text k) x (entries.map fun p => (.text p.1, p.2)) =
      (entries ++ [(k, x)]).map fun p => (.text p.1, p.2) := by
  induction entries with
  | nil => rfl
  | cons p entries ih =>
    rw [List.map_cons, List.mem_cons, not_or] at hnew
    have hother : Value.sameKey (.text p.1) (.text k) = false := by
      rw [show Value.sameKey (.text p.1) (.text k) = (p.1 == k) from rfl]
      simpa using Ne.symm hnew.1
    rw [List.map_cons, Value.setEntry, hother, if_neg Bool.false_ne_true, ih hnew.2]
    rfl

/-- Keys that are each there once make a map with their entries. -/
theorem mapOf_of_nodup {entries : List (Text × Value)} (hkeys : (entries.map Prod.fst).Nodup) :
    mapOf entries = .map (entries.map fun p => (.text p.1, p.2)) := by
  rw [mapOf]
  congr 1
  induction entries using List.reverseRecOn with
  | nil => rfl
  | append_singleton entries p ih =>
    rw [List.map_append, List.map_singleton, List.nodup_append'] at hkeys
    obtain ⟨hkeys, -, hnew⟩ := hkeys
    rw [List.foldl_append, ih hkeys, List.foldl_cons, List.foldl_nil]
    exact setEntry_of_new (fun hmem => hnew hmem List.mem_cons_self) p.2

theorem isReread_map {entries : List (Text × Value)} (hkeys : (entries.map Prod.fst).Nodup)
    (hjson : ∀ p ∈ entries, IsJson p.2) (hread : ∀ p ∈ entries, IsReread p.2) :
    IsReread (.map (entries.map fun p => (.text p.1, p.2))) := by
  refine fun fuel rest hfuel _ => ?_
  have htext : text (.map (entries.map fun p => (.text p.1, p.2))) =
      '\x7b' :: (Text.join comma (entries.map entryText) ++ ['\x7d']) := by
    rw [text, entryTexts_eq]
    rfl
  rw [htext, List.length_cons, List.length_append, List.length_singleton] at hfuel
  obtain ⟨fuel, rfl⟩ : ∃ k, fuel = k + 1 := ⟨fuel - 1, by omega⟩
  rw [htext, List.cons_append, List.append_assoc, List.singleton_append]
  rcases eq_or_ne entries [] with rfl | hne
  · rfl
  · obtain ⟨c, u, hcons, hspace, -, hbrace⟩ :=
      (opens_join_entryText hne).append ('\x7d' :: rest)
    have hentries := entries?_join hne hjson hread fuel rest (by omega)
    rw [hcons] at hentries ⊢
    rw [value?, skip_cons hspace]
    simp [hbrace, hentries, mapOf_of_nodup hkeys]

/-! ## Documents -/

/-- Every document is read back, by its structure. -/
theorem isReread_of_isJson {x : Value} (h : IsJson x) : IsReread x := by
  induction h with
  | null => exact isReread_of_plain .null fun _ _ _ => rfl
  | bool b =>
    refine isReread_of_plain (.bool b) fun _ _ _ => ?_
    cases b
    · rfl
    · rfl
  | int hi => exact isReread_int hi
  | real hx => exact isReread_real hx
  | text t => exact isReread_text t
  | list hjson hread => exact isReread_list hjson hread
  | map hkeys hjson hread => exact isReread_map hkeys hjson hread

/-- A document is got back from its text. -/
theorem read_text {x : Value} (h : IsJson x) : read (text x) = some x := by
  have hread := isReread_of_isJson h _ [] (Nat.le_succ (text x).length) (by rintro c ⟨⟩)
  rw [List.append_nil] at hread
  rw [read, (opens_text h).skip_eq, hread]
  rfl

end InsecureLinks.Json
