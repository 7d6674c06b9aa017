import Mathlib
import InsecureLinks.Document.Json
import InsecureLinks.Proofs.Number.Written

/-!
# Texts and numbers of JSON

A text in quotes is read back character by character (`char?_quotedChar`, `untilQuote?_quoted`), and a
number by its digits (`number?_integer`, `number?_numeral`).  A number must end where it ends, so what
follows it begins with nothing that could belong to a number (`Ends`).
-/

namespace InsecureLinks.Json

open Binary64 (finite)
open Decimal (Numeral signText exponentText)
open Literal (digitBelow? nearest cutSign)
open Text (isAsciiDigit value natural)

/-! ## Texts in quotes -/

theorem unit?_hexadecimal {n : ℕ} (hn : n < 0x10000) (rest : Text) :
    unit? (Text.hexadecimal 4 n ++ rest) = some (n, rest) := by
  have hdigit : ∀ d < 16, digitBelow? 16 (Text.digit d) = some d := by decide
  have hfour : Text.hexadecimal 4 n = [Text.digit (n / 16 / 16 / 16 % 16),
      Text.digit (n / 16 / 16 % 16), Text.digit (n / 16 % 16), Text.digit (n % 16)] := rfl
  rw [hfour]
  simp only [List.cons_append, List.nil_append, unit?, List.foldlM_cons, List.foldlM_nil,
    hdigit _ (Nat.mod_lt _ (by decide : 0 < 16))]
  simp only [Option.bind_eq_bind, Option.pure_def, Option.bind_some]
  congr 2
  omega

theorem escaped?_unitText {n : ℕ} (hn : n < 0x10000) (rest : Text) :
    char? (unitText n ++ rest) = fromUnit? n rest := by
  rw [unitText, List.cons_append, List.cons_append, char?, escaped?, unit?_hexadecimal hn]
  rfl

/-- A character is no half of a pair. -/
theorem isValidChar_toNat (c : Char) : c.toNat < 0xD800 ∨ 0xDFFF < c.toNat ∧ c.toNat < 0x110000 :=
  c.valid

theorem fromUnit?_toNat (c : Char) (rest : Text) : fromUnit? c.toNat rest = some (c, rest) := by
  have hvalid : c.toNat < firstHigh ∨ firstLow + halfCount ≤ c.toNat := by
    have hvalid := isValidChar_toNat c
    simp only [firstHigh, firstLow, halfCount]
    omega
  rw [fromUnit?.eq_def, if_pos hvalid, Char.ofNat_toNat]

theorem fromUnit?_second {n k : ℕ} {t rest : Text} (hn : firstHigh ≤ n ∧ n < firstLow)
    (hread : unit? t = some (k, rest)) (hk : firstLow ≤ k ∧ k < firstLow + halfCount) :
    fromUnit? n ('\\' :: 'u' :: t) =
      some (Char.ofNat (firstPaired + (n - firstHigh) * halfCount + (k - firstLow)), rest) := by
  rw [fromUnit?, if_neg (by omega), if_neg (by omega), hread]
  exact if_neg (by omega)

/-- A character is got back from the pair of code units that it is written as. -/
theorem fromUnit?_pair {c : Char} (hc : firstPaired ≤ c.toNat) (rest : Text) :
    fromUnit? (firstHigh + (c.toNat - firstPaired) / halfCount)
      (unitText (firstLow + (c.toNat - firstPaired) % halfCount) ++ rest) = some (c, rest) := by
  have hvalid := isValidChar_toNat c
  generalize hn : c.toNat - firstPaired = n
  have hback : firstPaired + n / halfCount * halfCount + n % halfCount = c.toNat := by
    simp only [firstPaired, halfCount] at hn hc ⊢
    omega
  have hhigh : n / halfCount < halfCount := by
    simp only [firstPaired, halfCount] at hn ⊢
    omega
  have hlow : n % halfCount < halfCount := Nat.mod_lt n (by decide)
  have hsum : firstHigh + halfCount = firstLow := by decide
  have hunit : firstLow + n % halfCount < 0x10000 := by
    simp only [firstLow, halfCount]
    omega
  rw [unitText, List.cons_append, List.cons_append,
    fromUnit?_second ⟨Nat.le_add_right _ _, by omega⟩ (unit?_hexadecimal hunit rest)
      ⟨Nat.le_add_right _ _, by omega⟩,
    Nat.add_sub_cancel_left, Nat.add_sub_cancel_left, hback, Char.ofNat_toNat]

theorem char?_of_letter {p : Char × Char} (h : p ∈ letters) (rest : Text) :
    char? ('\\' :: p.2 :: rest) = some (p.1, rest) := by
  simp only [letters, List.mem_cons, List.not_mem_nil, or_false] at h
  rcases h with rfl | rfl | rfl | rfl | rfl | rfl | rfl
  all_goals rfl

/-- A character is got back from what is written for it in quotes. -/
theorem char?_quotedChar (c : Char) (rest : Text) : char? (quotedChar c ++ rest) = some (c, rest) := by
  rw [quotedChar]
  split
  · next d letter hfind =>
    have hd : d = c := by simpa using List.find?_some hfind
    exact hd ▸ char?_of_letter (List.mem_of_find?_eq_some hfind) rest
  · next hfind =>
    split_ifs with hplain hunit
    · have hslash : c ≠ '\\' := by
        rintro rfl
        cases hfind
      rw [List.singleton_append, char?, if_neg (not_lt.2 hplain.1)]
      exact hslash
    · rw [escaped?_unitText hunit, fromUnit?_toNat]
    · rw [List.append_assoc, escaped?_unitText, fromUnit?_pair (not_lt.1 hunit)]
      have hvalid := isValidChar_toNat c
      simp only [firstHigh, firstPaired, halfCount]
      omega

/-- What is written for a character in quotes begins with no quote. -/
theorem quotedChar_eq_cons (c : Char) : ∃ d t, quotedChar c = d :: t ∧ d ≠ '"' := by
  rw [quotedChar]
  split
  · exact ⟨'\\', _, rfl, by decide⟩
  · next hfind =>
    split_ifs
    · refine ⟨c, [], rfl, ?_⟩
      rintro rfl
      cases hfind
    · exact ⟨'\\', _, rfl, by decide⟩
    · exact ⟨'\\', _, rfl, by decide⟩

theorem untilQuote?_quotedChar {fuel : ℕ} (c : Char) {rest u t : Text}
    (h : untilQuote? fuel rest = some (u, t)) :
    untilQuote? (fuel + 1) (quotedChar c ++ rest) = some (c :: u, t) := by
  have hchar := char?_quotedChar c rest
  obtain ⟨d, v, hquoted, hquote⟩ := quotedChar_eq_cons c
  rw [hquoted, List.cons_append] at hchar ⊢
  rw [untilQuote?, hchar]
  · simp [h]
  · rintro w hw
    exact hquote (List.cons.inj hw).1

/-- A text is got back from what is written for it in quotes. -/
theorem untilQuote?_quoted {t : Text} {fuel : ℕ} (hfuel : t.length < fuel) (rest : Text) :
    untilQuote? fuel (t.flatMap quotedChar ++ '"' :: rest) = some (t, rest) := by
  induction t generalizing fuel with
  | nil =>
    obtain ⟨fuel, rfl⟩ : ∃ k, fuel = k + 1 := ⟨fuel - 1, by simp at hfuel; omega⟩
    rfl
  | cons c t ih =>
    obtain ⟨fuel, rfl⟩ : ∃ k, fuel = k + 1 := ⟨fuel - 1, by omega⟩
    rw [List.flatMap_cons, List.append_assoc]
    exact untilQuote?_quotedChar c (ih (by simpa using hfuel))

theorem length_le_length_flatMap (t : Text) : t.length ≤ (t.flatMap quotedChar).length := by
  induction t with
  | nil => exact le_rfl
  | cons c t ih =>
    obtain ⟨d, u, hquoted, -⟩ := quotedChar_eq_cons c
    rw [List.flatMap_cons, hquoted, List.length_append, List.length_cons, List.length_cons]
    omega

/-! ## Numbers -/

/-- Whether a number may end before a text. -/
def Ends (t : Text) : Prop :=
  ∀ c ∈ t.head?, isAsciiDigit c = false ∧ c ≠ '.' ∧ c ≠ 'e' ∧ c ≠ 'E'

theorem Ends.isAsciiDigit {rest : Text} (h : Ends rest) : ∀ c ∈ rest.head?, isAsciiDigit c = false :=
  fun c hc => (h c hc).1

theorem takeWhile_append_of_head {t rest : Text} (hdigits : ∀ c ∈ t, isAsciiDigit c = true)
    (hrest : ∀ c ∈ rest.head?, isAsciiDigit c = false) :
    (t ++ rest).takeWhile isAsciiDigit = t := by
  rw [List.takeWhile_append_of_pos hdigits]
  rcases rest with _ | ⟨c, rest⟩
  · simp
  · simp [hrest c rfl]

theorem cutDigits_append {t rest : Text} (hdigits : ∀ c ∈ t, isAsciiDigit c = true)
    (hrest : ∀ c ∈ rest.head?, isAsciiDigit c = false) : cutDigits (t ++ rest) = (t, rest) := by
  rw [cutDigits, takeWhile_append_of_head hdigits hrest, List.drop_left]

theorem cutWhole_append {t rest : Text} (hdigits : ∀ c ∈ t, isAsciiDigit c = true)
    (hhead : t = ['0'] ∨ t.head? ≠ some '0') (hne : t ≠ [])
    (hrest : ∀ c ∈ rest.head?, isAsciiDigit c = false) : cutWhole (t ++ rest) = (t, rest) := by
  rcases hhead with rfl | hhead
  · rfl
  · obtain ⟨c, t, rfl⟩ := List.exists_cons_of_ne_nil hne
    rw [List.cons_append, cutWhole, ← List.cons_append, cutDigits_append hdigits hrest]
    rintro u ⟨rfl, -⟩
    exact hhead rfl

theorem cutPart_append {t rest : Text} (hdigits : ∀ c ∈ t, isAsciiDigit c = true)
    (hrest : ∀ c ∈ rest.head?, isAsciiDigit c = false ∧ c ≠ '.') :
    cutPart ((if t = [] then [] else '.' :: t) ++ rest) = (t, rest) := by
  split_ifs with ht
  · subst ht
    rcases rest with _ | ⟨c, rest⟩
    · rfl
    · rw [List.nil_append, cutPart]
      rintro u ⟨rfl, -⟩
      exact (hrest _ rfl).2 rfl
  · have hcut := cutDigits_append hdigits fun c hc => (hrest c hc).1
    rw [List.cons_append, cutPart, hcut, if_neg (by simpa using ht)]

/-- An exponent is got back from its text. -/
theorem cutExponent_exponentText (p : ℤ) {rest : Text}
    (hrest : ∀ c ∈ rest.head?, isAsciiDigit c = false) :
    cutExponent (exponentText p ++ rest) = (some p, rest) := by
  have hdigits : ∀ c ∈ Text.padLeft '0' 2 (natural p.natAbs), isAsciiDigit c = true := by
    intro c hc
    exact (List.mem_append.1 hc).elim (Decimal.isAsciiDigit_of_mem_zeros _ c)
      (Text.isAsciiDigit_of_mem_natural c)
  have hvalue : value (Text.padLeft '0' 2 (natural p.natAbs)) = p.natAbs := by
    rw [Text.padLeft, Text.value_append, Text.value_zeros, Text.value_natural, zero_mul, zero_add]
  have hne : (Text.padLeft '0' 2 (natural p.natAbs)).isEmpty = false := by
    simp [Text.padLeft, Text.natural_ne_nil]
  rw [exponentText, List.cons_append, List.cons_append, cutExponent]
  have hcut := cutDigits_append hdigits hrest
  by_cases hp : p < 0
  · simp [hp, cutSign, hcut, hne, hvalue, abs_of_neg hp]
  · simp [hp, cutSign, hcut, hne, hvalue, abs_of_nonneg (not_lt.1 hp)]

theorem cutExponent_of_ends {rest : Text} (h : Ends rest) : cutExponent rest = (none, rest) := by
  rcases rest with _ | ⟨c, rest⟩
  · rfl
  · obtain ⟨-, -, he, hE⟩ := h c rfl
    simp [cutExponent, he, hE]

/-- Whether a text begins with a digit. -/
def BeginsWithDigit (t : Text) : Prop := ∃ c u, t = c :: u ∧ isAsciiDigit c = true

theorem beginsWithDigit_append {t : Text} (hdigits : ∀ c ∈ t, isAsciiDigit c = true) (hne : t ≠ [])
    (rest : Text) : BeginsWithDigit (t ++ rest) := by
  obtain ⟨c, t, rfl⟩ := List.exists_cons_of_ne_nil hne
  exact ⟨c, t ++ rest, rfl, hdigits c List.mem_cons_self⟩

theorem beginsWithDigit_natural (k : ℕ) (rest : Text) : BeginsWithDigit (natural k ++ rest) :=
  beginsWithDigit_append Text.isAsciiDigit_of_mem_natural (Text.natural_ne_nil k) rest

theorem beginsWithDigit_numeral (w : Numeral) (rest : Text) : BeginsWithDigit (w.text ++ rest) := by
  rw [Numeral.text, List.append_assoc, List.append_assoc]
  exact beginsWithDigit_append w.isAsciiDigit_of_mem_whole w.whole_ne_nil _

theorem isAsciiDigit_ne {c d : Char} (hc : isAsciiDigit c = true) (hd : isAsciiDigit d = false) :
    d ≠ c := by
  rintro rfl
  rw [hc] at hd
  cases hd

theorem number?_signText (n : Bool) {t : Text} (h : BeginsWithDigit t) :
    number? (signText n ++ t) = unsigned? n t := by
  obtain ⟨c, u, rfl, hc⟩ := h
  cases n
  · rw [signText, if_neg Bool.false_ne_true, List.nil_append, number?]
    rintro v hminus
    exact isAsciiDigit_ne hc rfl (List.cons.inj hminus).1.symm
  · rfl

theorem integer_eq (i : ℤ) : Text.integer i = signText (i < 0) ++ natural i.natAbs := by
  by_cases hnegative : i < 0
  · simp [Text.integer, signText, hnegative]
  · simp [Text.integer, signText, hnegative]

/-- A whole number is got back from its numeral. -/
theorem number?_integer {i : ℤ} (hi : i.natAbs < 10 ^ Literal.maxDigits) {rest : Text}
    (hrest : Ends rest) : number? (Text.integer i ++ rest) = some (.int i, rest) := by
  have hdigits : ∀ c ∈ natural i.natAbs, isAsciiDigit c = true := Text.isAsciiDigit_of_mem_natural
  have hne := Text.natural_ne_nil i.natAbs
  have hlength := Text.length_natural_le (by decide) hi
  have hunsigned : ∀ n, unsigned? n (natural i.natAbs ++ rest) =
      some (.int (if n then -(i.natAbs : ℤ) else i.natAbs), rest) := by
    intro n
    have hpart := cutPart_append (t := []) (by simp) fun c hc => ⟨(hrest c hc).1, (hrest c hc).2.1⟩
    rw [if_pos rfl, List.nil_append] at hpart
    rw [unsigned?, cutWhole_append hdigits (Text.natural_eq_zero_or_head _) hne hrest.isAsciiDigit]
    simp [hpart, cutExponent_of_ends hrest, hne, not_lt.2 hlength, Text.value_natural]
  have hback : (if decide (i < 0) then -(i.natAbs : ℤ) else i.natAbs) = i := by
    by_cases hnegative : i < 0
    · simp [hnegative, abs_of_neg hnegative]
    · simp [hnegative, abs_of_nonneg (not_lt.1 hnegative)]
  rw [integer_eq, List.append_assoc, number?_signText _ (beginsWithDigit_natural _ rest),
    hunsigned, hback]

/-- A real number is got back from its numeral. -/
theorem number?_numeral (n : Bool) (w : Numeral) {rest : Text} (hrest : Ends rest) :
    number? (signText n ++ w.text ++ rest) = some (.real (nearest n w.digits w.place), rest) := by
  have hexponent : cutExponent (w.exponent.elim [] exponentText ++ rest) = (w.exponent, rest) := by
    rcases w.exponent with _ | p
    · exact cutExponent_of_ends hrest
    · exact cutExponent_exponentText p hrest.isAsciiDigit
  have hafter : ∀ c ∈ (w.exponent.elim [] exponentText ++ rest).head?,
      isAsciiDigit c = false ∧ c ≠ '.' := by
    rcases w.exponent with _ | p
    · exact fun c hc => ⟨(hrest c hc).1, (hrest c hc).2.1⟩
    · rintro c ⟨⟩
      decide
  have hpoint : ∀ c ∈ ((if w.part = [] then [] else '.' :: w.part) ++
      (w.exponent.elim [] exponentText ++ rest)).head?, isAsciiDigit c = false := by
    split_ifs
    · exact fun c hc => (hafter c hc).1
    · rintro c ⟨⟩
      decide
  have hreal : (w.part.isEmpty && w.exponent.isNone) = false := by
    rcases w.isReal with hpart | hexp
    · simp [hpart]
    · rcases hw : w.exponent
      · exact absurd hw hexp
      · simp
  rw [List.append_assoc, number?_signText _ (beginsWithDigit_numeral w rest), Numeral.text,
    List.append_assoc, List.append_assoc, unsigned?,
    cutWhole_append w.isAsciiDigit_of_mem_whole w.head_whole w.whole_ne_nil hpoint]
  simp only [cutPart_append w.isAsciiDigit_of_mem_part hafter, hexponent, hreal]
  simp [w.whole_ne_nil, Numeral.digits, Numeral.place]

/-! ## Words and numbers -/

/-- What begins with a digit after its sign is no word. -/
theorem find?_words_signText (n : Bool) {t : Text} (h : BeginsWithDigit t) :
    words.find? (fun (word, _) => word.isPrefixOf (signText n ++ t)) = none := by
  obtain ⟨c, u, rfl, hc⟩ := h
  have hne {d : Char} (hd : isAsciiDigit d = false) : d ≠ c := isAsciiDigit_ne hc hd
  cases n
  · simp [words, signText, hne (d := 'n') rfl, hne (d := 't') rfl, hne (d := 'f') rfl,
      hne (d := 'N') rfl, hne (d := 'I') rfl, hne (d := '-') rfl]
  · simp [words, signText, hne (d := 'I') rfl]

theorem plain?_signText (n : Bool) {t : Text} (h : BeginsWithDigit t) :
    plain? (signText n ++ t) = number? (signText n ++ t) := by
  rw [plain?, find?_words_signText n h]

theorem value?_of_head (fuel : ℕ) {t : Text} (h : ∀ c ∈ t.head?, c ≠ '"' ∧ c ≠ '[' ∧ c ≠ '\x7b') :
    value? (fuel + 1) t = plain? t := by
  rcases t with _ | ⟨c, t⟩
  · rfl
  · obtain ⟨hquote, hbracket, hbrace⟩ := h c rfl
    rw [value?]
    · rintro u ⟨rfl, -⟩
      exact hquote rfl
    · rintro u ⟨rfl, -⟩
      exact hbracket rfl
    · rintro u ⟨rfl, -⟩
      exact hbrace rfl

theorem value?_signText (fuel : ℕ) (n : Bool) {t : Text} (h : BeginsWithDigit t) :
    value? (fuel + 1) (signText n ++ t) = number? (signText n ++ t) := by
  rw [value?_of_head, plain?_signText n h]
  obtain ⟨c, u, rfl, hc⟩ := h
  cases n
  · rintro d ⟨⟩
    exact ⟨(isAsciiDigit_ne hc rfl).symm, (isAsciiDigit_ne hc rfl).symm,
      (isAsciiDigit_ne hc rfl).symm⟩
  · rintro d ⟨⟩
    decide

end InsecureLinks.Json
