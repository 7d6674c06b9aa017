import Mathlib
import InsecureLinks.Files.Path
import InsecureLinks.Proofs.Text.Numeral
import InsecureLinks.Proofs.Whitelist.Lines

/-!
# The ways to write an entry

An entry can be written in more ways than one: a path with any slashes between its names and any
number of `.` before them, a line number with zeros before it, and blanks around either
(`WhitelistEntry.Spells`).  All of them are one entry when they are read (`Spells.isEntry`).
-/

namespace InsecureLinks.WhitelistEntry

/-! ## Paths -/

/-- Whether a text is a run of slashes of either kind. -/
def IsSlashes (s : Text) : Prop := s ≠ [] ∧ ∀ c ∈ s, c = '/' ∨ c = '\\'

instance (s : Text) : Decidable (IsSlashes s) := @instDecidableAnd _ _ _ (List.decidableBAll _ s)

/-- Whether a text is names with slashes between them. -/
inductive SpellsNames : List Text → Text → Prop
  | one (n : Text) : SpellsNames [n] n
  | cons {n s t : Text} {ns : List Text} (hs : IsSlashes s) (h : SpellsNames ns t) :
      SpellsNames (n :: ns) (n ++ (s ++ t))

/-- Whether a text is a path with any number of `.` before its names. -/
def SpellsPath (p t : Text) : Prop :=
  ∃ k, SpellsNames (List.replicate k Path.dot ++ Text.fields '/' p) t

theorem collapseSlashes_append {n : Text} (hn : '/' ∉ n) (u : Text) :
    collapseSlashes (n ++ u) = n ++ collapseSlashes u := by
  induction n with
  | nil => rfl
  | cons c n ih =>
    rw [List.mem_cons, not_or] at hn
    rw [List.cons_append, collapseSlashes.eq_2 c _ fun _ hc _ => hn.1 hc.symm, ih hn.2]
    rfl

theorem collapseSlashes_replicate (m : ℕ) {u : Text} (hu : u.head? ≠ some '/') :
    collapseSlashes (List.replicate (m + 1) '/' ++ u) = '/' :: collapseSlashes u := by
  induction m with
  | zero =>
    refine collapseSlashes.eq_2 '/' u ?_
    rintro t - rfl
    exact hu rfl
  | succ m ih => exact (collapseSlashes.eq_1 _).trans ih

theorem IsSlashes.exists_replicate {s : Text} (h : IsSlashes s) :
    ∃ m, Text.replaceChar '\\' '/' s = List.replicate (m + 1) '/' := by
  have hpos := List.length_pos_of_ne_nil h.1
  refine ⟨s.length - 1, List.eq_replicate_iff.2 ⟨?_, ?_⟩⟩
  · rw [Text.replaceChar, List.length_map]
    omega
  · intro c hc
    obtain ⟨d, hd, rfl⟩ := List.mem_map.1 hc
    rcases h.2 d hd with rfl | rfl
    · decide
    · decide

namespace SpellsNames

variable {ns : List Text} {t : Text}

theorem ne_nil (h : SpellsNames ns t) : ns ≠ [] := by
  cases h with
  | one => simp
  | cons => simp

theorem mem (h : SpellsNames ns t) {c : Char} (hc : c ∈ t) :
    (∃ n ∈ ns, c ∈ n) ∨ c = '/' ∨ c = '\\' := by
  induction h with
  | one n => exact .inl ⟨n, by simp, hc⟩
  | cons hs _ ih =>
    rcases List.mem_append.1 hc with hc | hc
    · exact .inl ⟨_, by simp, hc⟩
    · rcases List.mem_append.1 hc with hc | hc
      · exact .inr (hs.2 c hc)
      · refine (ih hc).imp_left ?_
        rintro ⟨n, hn, hc⟩
        exact ⟨n, by simp [hn], hc⟩

/-- The text begins as the first name does. -/
theorem head_eq (h : SpellsNames ns t) (hne : ∀ n ∈ ns, n ≠ []) :
    t.head? = (Text.join ['/'] ns).head? := by
  cases h with
  | one n => rfl
  | cons hs h =>
    have hn := hne _ List.mem_cons_self
    rw [Text.join_cons h.ne_nil, List.head?_append_of_ne_nil _ hn, List.head?_append_of_ne_nil _ hn]

theorem spelled_ne_nil (h : SpellsNames ns t) (hne : ∀ n ∈ ns, n ≠ []) : t ≠ [] := by
  cases h with
  | one => exact hne _ (by simp)
  | cons => exact List.append_ne_nil_of_left_ne_nil (hne _ List.mem_cons_self) _

/-- The text ends as the last name does. -/
theorem getLast_eq (h : SpellsNames ns t) (hne : ∀ n ∈ ns, n ≠ []) :
    t.getLast? = (Text.join ['/'] ns).getLast? := by
  induction h with
  | one n => rfl
  | @cons n s t ns hs h ih =>
    have hne' : ∀ n ∈ ns, n ≠ [] := fun n hn => hne n (List.mem_cons_of_mem _ hn)
    have ht := h.spelled_ne_nil hne'
    have hjoin : Text.join ['/'] ns ≠ [] := by
      intro hnil
      have hlast := ih hne'
      rw [hnil, List.getLast?_nil, List.getLast?_eq_none_iff] at hlast
      exact ht hlast
    rw [Text.join_cons h.ne_nil, ← List.append_assoc, ← List.append_assoc,
      List.getLast?_append_of_ne_nil _ ht, List.getLast?_append_of_ne_nil _ hjoin, ih hne']

theorem head_replaceChar_ne (h : SpellsNames ns t)
    (hns : ∀ n ∈ ns, n ≠ [] ∧ '/' ∉ n ∧ '\\' ∉ n) :
    (Text.replaceChar '\\' '/' t).head? ≠ some '/' := by
  obtain ⟨n, ns, rfl⟩ := List.exists_cons_of_ne_nil h.ne_nil
  obtain ⟨hne, hslash, hback⟩ := hns n List.mem_cons_self
  obtain ⟨c, n, rfl⟩ := List.exists_cons_of_ne_nil hne
  have hhead : t.head? = some c := by
    rw [h.head_eq fun n hn => (hns n hn).1]
    cases ns with
    | nil => rfl
    | cons => rfl
  obtain ⟨t, rfl⟩ := List.head?_eq_some_iff.1 hhead
  have hc : c ≠ '\\' := by
    rintro rfl
    exact hback List.mem_cons_self
  rw [Text.replaceChar, List.map_cons, List.head?_cons, if_neg hc]
  rintro ⟨⟩
  exact hslash List.mem_cons_self

/-- Whatever slashes are between the names, one forward slash is left of each run. -/
theorem collapse_eq (h : SpellsNames ns t) (hns : ∀ n ∈ ns, n ≠ [] ∧ '/' ∉ n ∧ '\\' ∉ n) :
    collapseSlashes (Text.replaceChar '\\' '/' t) = Text.join ['/'] ns := by
  have hkept : ∀ n ∈ ns, Text.replaceChar '\\' '/' n = n :=
    fun n hn => Text.replaceChar_of_not_mem (hns n hn).2.2 '/'
  induction h with
  | one n =>
    obtain ⟨-, hslash, -⟩ := hns n (by simp)
    have hcollapse := collapseSlashes_append hslash []
    rw [List.append_nil] at hcollapse
    rw [hkept n (by simp), hcollapse]
    exact List.append_nil n
  | @cons n s t ns hs h ih =>
    have hns' : ∀ n ∈ ns, n ≠ [] ∧ '/' ∉ n ∧ '\\' ∉ n :=
      fun n hn => hns n (List.mem_cons_of_mem _ hn)
    obtain ⟨m, hm⟩ := hs.exists_replicate
    have hhead := h.head_replaceChar_ne hns'
    have hparts : Text.replaceChar '\\' '/' (n ++ (s ++ t)) =
        n ++ (List.replicate (m + 1) '/' ++ Text.replaceChar '\\' '/' t) := by
      rw [← hm, Text.replaceChar, List.map_append, List.map_append, ← Text.replaceChar,
        ← Text.replaceChar, ← Text.replaceChar, hkept n (by simp)]
    rw [hparts, collapseSlashes_append (hns n (by simp)).2.1, collapseSlashes_replicate m hhead,
      ih hns' fun n hn => hkept n (List.mem_cons_of_mem _ hn), Text.join_cons h.ne_nil]
    rfl

end SpellsNames

/-! ## Names after dots -/

theorem join_dots (k : ℕ) (p : Text) :
    Text.join ['/'] (List.replicate k Path.dot ++ Text.fields '/' p) =
      (List.replicate k ['.', '/']).flatten ++ p := by
  induction k with
  | zero => exact Text.join_fields '/' p
  | succ k ih =>
    rw [List.replicate_succ, List.cons_append,
      Text.join_cons (by simp [Text.fields_ne_nil]), ih]
    rfl

theorem dropHere_dots (k : ℕ) (p : Text) :
    dropHere ((List.replicate k ['.', '/']).flatten ++ p) = dropHere p := by
  induction k with
  | zero => rfl
  | succ k ih => exact (dropHere.eq_1 _).trans ih

theorem SpellsPath.mem {p t : Text} (ht : SpellsPath p t) {c : Char} (hc : c ∈ t) :
    c ∈ p ∨ c ∈ ['.', '/', '\\'] := by
  obtain ⟨k, hk⟩ := ht
  rcases hk.mem hc with ⟨n, hn, hc⟩ | rfl | rfl
  · rcases List.mem_append.1 hn with hn | hn
    · rw [List.eq_of_mem_replicate hn, Path.dot, List.mem_singleton] at hc
      simp [hc]
    · rw [← Text.join_fields '/' p]
      exact .inl (Text.subset_join hn hc)
  · simp
  · simp

/-! ## Plain paths -/

/-- Whether a path is on one line and written as whitelists hold it: names between single forward
slashes, of which the first is not `.`, without blanks around it and not like a comment. -/
structure IsPlainPath (p : Text) : Prop where
  names : ∀ n ∈ Text.fields '/' p, n ≠ []
  notHere : (Text.fields '/' p).head? ≠ some Path.dot
  slashes : '\\' ∉ p
  oneLine : ∀ c ∈ p, Text.isWideBreak c = false
  head : ∀ c, p.head? = some c → Text.isBlank c = false ∧ c ≠ '#'
  last : ∀ c, p.getLast? = some c → Text.isBlank c = false

theorem IsPlainPath.ne_nil {p : Text} (h : IsPlainPath p) : p ≠ [] := by
  rintro rfl
  exact h.names [] (by simp [Text.fields]) rfl

theorem IsPlainPath.dropHere_eq {p : Text} (h : IsPlainPath p) : dropHere p = p := by
  refine dropHere.eq_2 p ?_
  rintro t rfl
  exact h.notHere (by simp [Text.fields, Path.dot])

section Plain

variable {p t : Text} (hp : IsPlainPath p)
include hp

theorem IsPlainPath.names_after_dots {k : ℕ} :
    ∀ n ∈ List.replicate k Path.dot ++ Text.fields '/' p, n ≠ [] ∧ '/' ∉ n ∧ '\\' ∉ n := by
  intro n hn
  rcases List.mem_append.1 hn with hn | hn
  · rw [List.eq_of_mem_replicate hn]
    decide
  · refine ⟨hp.names n hn, Text.not_mem_of_mem_fields hn, fun hc => hp.slashes ?_⟩
    rw [← Text.join_fields '/' p]
    exact Text.subset_join hn hc

theorem SpellsPath.head (ht : SpellsPath p t) :
    ∃ c, t.head? = some c ∧ Text.isBlank c = false ∧ c ≠ '#' := by
  obtain ⟨k, hk⟩ := ht
  rw [hk.head_eq fun n hn => (hp.names_after_dots n hn).1, join_dots]
  cases k with
  | zero =>
    obtain ⟨c, u, rfl⟩ := List.exists_cons_of_ne_nil hp.ne_nil
    exact ⟨c, rfl, hp.head c rfl⟩
  | succ k => exact ⟨'.', rfl, by decide⟩

theorem SpellsPath.last (ht : SpellsPath p t) {c : Char} (hc : t.getLast? = some c) :
    Text.isBlank c = false := by
  obtain ⟨k, hk⟩ := ht
  rw [hk.getLast_eq fun n hn => (hp.names_after_dots n hn).1, join_dots,
    List.getLast?_append_of_ne_nil _ hp.ne_nil] at hc
  exact hp.last c hc

theorem SpellsPath.strip_eq (ht : SpellsPath p t) : t.strip = t := by
  obtain ⟨c, hhead, hc, -⟩ := ht.head hp
  refine Text.strip_of_ends (fun d hd => ?_) fun d => ht.last hp
  obtain rfl : c = d := Option.some.inj (hhead.symm.trans hd)
  exact hc

/-- Every spelling of a path is this path to a whitelist. -/
theorem SpellsPath.normalizePath_eq (ht : SpellsPath p t) : normalizePath t = p := by
  have hstrip := ht.strip_eq hp
  obtain ⟨k, hk⟩ := ht
  rw [normalizePath, hstrip, hk.collapse_eq hp.names_after_dots, join_dots, dropHere_dots,
    hp.dropHere_eq]

end Plain

/-! ## Blanks and zeros -/

/-- Whether a text is blanks, none of which ends a line. -/
def IsPadding (b : Text) : Prop := ∀ c ∈ b, Text.isBlank c = true ∧ Text.isWideBreak c = false

instance (b : Text) : Decidable (IsPadding b) := List.decidableBAll _ b

-- Without it the search finds an instance that goes through all characters there are.
instance (t : Text) : Decidable (∀ c ∈ t, Text.isWideBreak c = false) := List.decidableBAll _ t

/-- Whether `u` is `t` with padding around it. -/
def IsPadded (t u : Text) : Prop := ∃ l r, IsPadding l ∧ IsPadding r ∧ u = l ++ (t ++ r)

namespace IsPadded

variable {t u : Text} (h : IsPadded t u)
include h

theorem strip_eq : u.strip = t.strip := by
  obtain ⟨l, r, hl, hr, rfl⟩ := h
  exact Text.strip_padded (fun c hc => (hl c hc).1) (fun c hc => (hr c hc).1) t

theorem head_stripLeft {c : Char} (hhead : t.head? = some c) (hc : Text.isBlank c = false) :
    u.stripLeft.head? = some c := by
  obtain ⟨l, r, hl, -, rfl⟩ := h
  obtain ⟨t, rfl⟩ := List.head?_eq_some_iff.1 hhead
  rw [Text.stripLeft_append fun c hc => (hl c hc).1, List.cons_append,
    Text.stripLeft_of_head (by simpa using hc), List.head?_cons]

theorem mem {c : Char} (hc : c ∈ u) : c ∈ t ∨ Text.isBlank c = true ∧ Text.isWideBreak c = false := by
  obtain ⟨l, r, hl, hr, rfl⟩ := h
  rcases List.mem_append.1 hc with hc | hc
  · exact .inr (hl c hc)
  · exact (List.mem_append.1 hc).imp_right (hr c)

end IsPadded

theorem isPadded_self (t : Text) : IsPadded t t := ⟨[], [], by simp [IsPadding]⟩

theorem forall_mem_numeral {P : Char → Prop} (h : ∀ d < 10, P (Text.digit d)) (z n : ℕ) :
    ∀ c ∈ List.replicate z '0' ++ Text.natural n, P c := by
  intro c hc
  rcases List.mem_append.1 hc with hc | hc
  · rw [List.eq_of_mem_replicate hc]
    exact h 0 (by decide)
  · exact Text.forall_mem_natural h n c hc

theorem isNumeral_numeral (z n : ℕ) : IsNumeral (List.replicate z '0' ++ Text.natural n) :=
  ⟨by simp [Text.natural_ne_nil], forall_mem_numeral (by decide) z n⟩

theorem strip_numeral (z n : ℕ) : Text.strip (List.replicate z '0' ++ Text.natural n) =
    List.replicate z '0' ++ Text.natural n := by
  have hblank := forall_mem_numeral (P := fun c => Text.isBlank c = false) (by decide) z n
  exact Text.strip_of_ends (fun c hc => hblank c (List.mem_of_head? hc))
    fun c hc => hblank c (List.mem_of_getLast? hc)

theorem value_numeral (z n : ℕ) : Text.value (List.replicate z '0' ++ Text.natural n) = n := by
  rw [Text.value_append, Text.value_zeros, Text.value_natural, Nat.zero_mul, Nat.zero_add]

/-! ## Entries -/

/-- Whether an entry can be written and is the same when it is read: its path is plain, its number is
that of a line and not too long, and without a number there is no `:` in its path. -/
structure IsPlain (e : WhitelistEntry) : Prop where
  path : IsPlainPath e.filePattern
  noColon : e.lineNumber = none → ':' ∉ e.filePattern
  number : ∀ n, e.lineNumber = some n → 1 ≤ n ∧ (Text.integer n).length ≤ Literal.maxDigits
  noContent : e.lineContent = none

/-- Whether a line is a way to write an entry. -/
inductive Spells : WhitelistEntry → Text → Prop
  | wholeFile {p t line : Text} (ht : SpellsPath p t) (hline : IsPadded t line) :
      Spells ⟨p, none, none⟩ line
  | oneLine {p t path number : Text} {n : ℤ} {z : ℕ} (ht : SpellsPath p t) (hpath : IsPadded t path)
      (hnumber : IsPadded (List.replicate z '0' ++ Text.integer n) number)
      (hdigits : z + (Text.integer n).length ≤ Literal.maxDigits) :
      Spells ⟨p, some n, none⟩ (path ++ ':' :: number)

theorem IsPlain.exists_natural {e : WhitelistEntry} (he : e.IsPlain) {i : ℤ}
    (h : e.lineNumber = some i) : ∃ n : ℕ, 1 ≤ n ∧ i = n ∧ Text.integer i = Text.natural n := by
  obtain ⟨hpos, -⟩ := he.number i h
  obtain ⟨n, rfl⟩ := Int.eq_ofNat_of_zero_le (by omega : 0 ≤ i)
  exact ⟨n, by omega, rfl, Text.integer_natCast n⟩

namespace Spells

variable {e : WhitelistEntry} {line : Text}

/-- Every way to write an entry is this entry when it is read. -/
theorem isEntry (he : e.IsPlain) (h : e.Spells line) : IsEntry line e ∧ ¬HasLongNumber line := by
  cases h with
  | @wholeFile p t line ht hline =>
    have hcolon : ':' ∉ line := by
      intro hc
      rcases hline.mem hc with hc | ⟨hblank, -⟩
      · rcases ht.mem hc with hc | hc
        · exact he.noColon rfl hc
        · revert hc
          decide
      · cases hblank
    have hpath : normalizePath line = p :=
      (normalizePath_of_strip_eq hline.strip_eq).trans (ht.normalizePath_eq he.path)
    have hentry := IsEntry.wholeFile hcolon (hpath ▸ he.path.ne_nil)
    rw [hpath] at hentry
    exact ⟨hentry, not_hasLongNumber_of_noColon hcolon⟩
  | @oneLine p t path number n z ht hpath hnumber hdigits =>
    obtain ⟨n, hn, rfl, hinteger⟩ := he.exists_natural rfl
    rw [hinteger] at hnumber hdigits
    have hstrip : number.strip = List.replicate z '0' ++ Text.natural n :=
      hnumber.strip_eq.trans (strip_numeral z n)
    have hcut : IsCut (path ++ ':' :: number) path number := by
      refine ⟨rfl, fun hc => ?_⟩
      rcases hnumber.mem hc with hc | ⟨hblank, -⟩
      · exact forall_mem_numeral (P := fun c => c ≠ ':') (by decide) z n ':' hc rfl
      · cases hblank
    have hnormal : normalizePath path = p :=
      (normalizePath_of_strip_eq hpath.strip_eq).trans (ht.normalizePath_eq he.path)
    have hvalue : Text.value number.strip = n := by
      rw [hstrip, value_numeral]
    have hentry := IsEntry.oneLine hcut (hstrip ▸ isNumeral_numeral z n) (by omega)
      (hnormal ▸ he.path.ne_nil)
    rw [hvalue, hnormal] at hentry
    refine ⟨hentry, hcut.not_hasLongNumber ?_⟩
    rw [hstrip, List.length_append, List.length_replicate]
    exact hdigits

theorem not_isWideBreak (he : e.IsPlain) (h : e.Spells line) :
    ∀ c ∈ line, Text.isWideBreak c = false := by
  have hslashes : ∀ c ∈ ['.', '/', '\\'], Text.isWideBreak c = false := by decide
  have hpath : ∀ {t u : Text}, SpellsPath e.filePattern t → IsPadded t u →
      ∀ c ∈ u, Text.isWideBreak c = false := by
    intro t u ht hu c hc
    rcases hu.mem hc with hc | ⟨-, hc⟩
    · rcases ht.mem hc with hc | hc
      · exact he.path.oneLine c hc
      · exact hslashes c hc
    · exact hc
  cases h with
  | wholeFile ht hline => exact hpath ht hline
  | @oneLine p t path number n z ht hu hnumber hdigits =>
    obtain ⟨n, -, rfl, hinteger⟩ := he.exists_natural rfl
    rw [hinteger] at hnumber
    intro c hc
    rcases List.mem_append.1 hc with hc | hc
    · exact hpath ht hu c hc
    · rcases List.mem_cons.1 hc with rfl | hc
      · decide
      · rcases hnumber.mem hc with hc | ⟨-, hc⟩
        · exact forall_mem_numeral (P := fun c => Text.isWideBreak c = false) (by decide) z n c hc
        · exact hc

theorem head_strip (he : e.IsPlain) (h : e.Spells line) :
    ∃ c, line.strip.head? = some c ∧ c ≠ '#' := by
  cases h with
  | wholeFile ht hline =>
    obtain ⟨c, hhead, -, hc⟩ := ht.head he.path
    refine ⟨c, ?_, hc⟩
    rw [hline.strip_eq, ht.strip_eq he.path, hhead]
  | oneLine ht hpath hnumber hdigits =>
    obtain ⟨c, hhead, hblank, hc⟩ := ht.head he.path
    refine ⟨c, ?_, hc⟩
    have hleft := hpath.head_stripLeft hhead hblank
    obtain ⟨u, hu⟩ := List.head?_eq_some_iff.1 hleft
    rw [Text.strip_append_cons (by decide), hu]
    rfl

end Spells

theorem spellsNames_join {ns : List Text} (hne : ns ≠ []) :
    SpellsNames ns (Text.join ['/'] ns) := by
  induction ns with
  | nil => exact absurd rfl hne
  | cons n ns ih =>
    by_cases hns : ns = []
    · subst hns
      exact .one n
    · rw [Text.join_cons hns]
      exact .cons ⟨by simp, by simp⟩ (ih hns)

theorem spellsPath_self (p : Text) : SpellsPath p p := by
  have hnames := spellsNames_join (@Text.fields_ne_nil '/' p)
  rw [Text.join_fields] at hnames
  exact ⟨0, hnames⟩

theorem text_natural (p : Text) (n : ℕ) :
    text ⟨p, some (n : ℤ), none⟩ = p ++ ':' :: Text.natural n := by
  rw [← Text.integer_natCast, text]

theorem IsPlainPath.isPlain {p : Text} (hp : IsPlainPath p) {n : ℕ} (hn : 1 ≤ n)
    (hdigits : (Text.natural n).length ≤ Literal.maxDigits) :
    IsPlain ⟨p, some (n : ℤ), none⟩ := by
  refine ⟨hp, ?_, ?_, rfl⟩
  · rintro ⟨⟩
  · rintro i ⟨⟩
    rw [Text.integer_natCast]
    exact ⟨by omega, hdigits⟩

/-- An entry's own text is one of the ways to write it. -/
theorem IsPlain.spells_text {e : WhitelistEntry} (he : e.IsPlain) : e.Spells e.text := by
  obtain ⟨p, i, t⟩ := e
  obtain rfl : t = none := he.noContent
  cases i with
  | none => exact .wholeFile (spellsPath_self p) (isPadded_self p)
  | some i =>
    refine .oneLine (z := 0) (spellsPath_self p) (isPadded_self p) (isPadded_self _) ?_
    rw [Nat.zero_add]
    exact (he.number i rfl).2

end InsecureLinks.WhitelistEntry
