import Mathlib
import InsecureLinks.Number.Literal
import InsecureLinks.Proofs.Number.Shortest

/-!
# Written numbers

The shortest text of a double precision number is a numeral with a point or an exponent, and the number
is the nearest one to what the numeral denotes (`exists_numeral_of_shortest`).
-/

namespace InsecureLinks.Decimal

open Binary64
open Literal (nearest)
open Text (isAsciiDigit value)

/-! ## Numerals -/

/-- A numeral with a point or an exponent.  Before the point stands a zero alone, or a row of digits
that begins with no zero. -/
structure Numeral where
  whole : Text
  part : Text
  exponent : Option ℤ
  whole_ne_nil : whole ≠ []
  isAsciiDigit_of_mem_whole : ∀ c ∈ whole, isAsciiDigit c = true
  head_whole : whole = ['0'] ∨ whole.head? ≠ some '0'
  isAsciiDigit_of_mem_part : ∀ c ∈ part, isAsciiDigit c = true
  isReal : part ≠ [] ∨ exponent ≠ none

namespace Numeral

/-- The numeral as text. -/
def text (w : Numeral) : Text :=
  w.whole ++ (if w.part = [] then [] else '.' :: w.part) ++ w.exponent.elim [] exponentText

/-- Its digits, without the point. -/
def digits (w : Numeral) : Text := w.whole ++ w.part

/-- The power of ten that its last digit counts. -/
def place (w : Numeral) : ℤ := w.exponent.getD 0 - w.part.length

/-- Whether it denotes the number whose digits are `t`, the point being after `point` of them. -/
def Denotes (w : Numeral) (t : Text) (point : ℤ) : Prop :=
  (value w.digits * 10 ^ w.place : ℚ) = value t * 10 ^ (point - t.length)

end Numeral

theorem isAsciiDigit_of_mem_zeros (k : ℕ) : ∀ c ∈ List.replicate k '0', isAsciiDigit c = true := by
  intro c hc
  rw [List.eq_of_mem_replicate hc]
  rfl

section Shapes

variable {t : Text} {point : ℤ}

theorem exists_numeral_of_positional (hne : t ≠ []) (hdigits : ∀ c ∈ t, isAsciiDigit c = true)
    (hhead : t.head? ≠ some '0') : ∃ w : Numeral, positional t point = w.text ∧ w.Denotes t point := by
  rw [positional]
  dsimp only
  split_ifs with hpoint hlength
  · obtain ⟨k, rfl⟩ : ∃ k : ℕ, point = -k := ⟨(-point).toNat, by omega⟩
    refine ⟨⟨['0'], List.replicate k '0' ++ t, none, by simp, isAsciiDigit_of_mem_zeros 1, .inl rfl,
      ?_, by simp [hne]⟩, ?_, ?_⟩
    · intro c hc
      exact (List.mem_append.1 hc).elim (isAsciiDigit_of_mem_zeros k c) (hdigits c)
    · simp [Numeral.text, hne]
    · have hvalue : value ('0' :: (List.replicate k '0' ++ t)) = value t := by
        rw [← List.cons_append, ← List.replicate_succ, Text.value_append, Text.value_zeros, zero_mul,
          zero_add]
      have hplace : (0 : ℤ) - (List.replicate k '0' ++ t).length = -k - t.length := by
        rw [List.length_append, List.length_replicate]
        push_cast
        ring
      rw [Numeral.Denotes, Numeral.digits, Numeral.place]
      simp only [List.singleton_append, Option.getD_none]
      rw [hvalue, hplace]
  · obtain ⟨k, hk⟩ : ∃ k, point.toNat = t.length + k := ⟨point.toNat - t.length, by omega⟩
    have hshift : point - t.length = k := by omega
    rw [hk, Nat.add_sub_cancel_left]
    refine ⟨⟨t ++ List.replicate k '0', ['0'], none, by simp [hne], ?_, .inr ?_,
      isAsciiDigit_of_mem_zeros 1, by simp⟩, ?_, ?_⟩
    · intro c hc
      exact (List.mem_append.1 hc).elim (hdigits c) (isAsciiDigit_of_mem_zeros k c)
    · rwa [List.head?_append_of_ne_nil _ hne]
    · simp [Numeral.text]
    · rw [Numeral.Denotes, Numeral.digits, Numeral.place, hshift]
      simp only [Text.value_append, Text.value_zeros, List.length_replicate, List.length_singleton,
        Option.getD_none]
      rw [show value ['0'] = 0 from rfl, zpow_natCast]
      push_cast
      norm_num
      ring
  · have hlt : point.toNat < t.length := by omega
    have hsplit := List.take_append_drop point.toNat t
    refine ⟨⟨t.take point.toNat, t.drop point.toNat, none, ?_, ?_, .inr ?_, ?_, .inl ?_⟩, ?_, ?_⟩
    · simp [hne]
      omega
    · exact fun c hc => hdigits c (List.mem_of_mem_take hc)
    · rwa [List.head?_take, if_neg (by omega)]
    · exact fun c hc => hdigits c (List.mem_of_mem_drop hc)
    · simp
      omega
    · simp [Numeral.text, hlt]
    · rw [Numeral.Denotes, Numeral.digits, Numeral.place, hsplit, List.length_drop]
      congr 2
      simp only [Option.getD_none]
      omega

theorem exists_numeral_of_scientific (hne : t ≠ []) (hdigits : ∀ c ∈ t, isAsciiDigit c = true)
    (hhead : t.head? ≠ some '0') :
    ∃ w : Numeral, scientific t (point - 1) = w.text ∧ w.Denotes t point := by
  rcases t with _ | ⟨d, _ | ⟨d', t⟩⟩
  · exact absurd rfl hne
  · refine ⟨⟨[d], [], some (point - 1), hne, hdigits, .inr hhead, by simp, by simp⟩, ?_, ?_⟩
    · simp [scientific, Numeral.text]
    · simp [Numeral.Denotes, Numeral.digits, Numeral.place]
  · refine ⟨⟨[d], d' :: t, some (point - 1), by simp, ?_, .inr hhead, ?_, by simp⟩, ?_, ?_⟩
    · exact fun c hc => hdigits c (by simp [List.mem_singleton.1 hc])
    · exact fun c hc => hdigits c (List.mem_cons_of_mem d hc)
    · simp [scientific, Numeral.text]
    · rw [Numeral.Denotes, Numeral.digits, Numeral.place]
      simp only [Option.getD_some, List.singleton_append, List.length_cons]
      congr 2
      push_cast
      ring

end Shapes

/-! ## Trailing zeros -/

theorem exists_dropZeros (t : Text) : ∃ k, t = dropZeros t ++ List.replicate k '0' := by
  refine ⟨(t.reverse.takeWhile (· = '0')).length, ?_⟩
  have hzeros : t.reverse.takeWhile (· = '0') =
      List.replicate (t.reverse.takeWhile (· = '0')).length '0' :=
    List.eq_replicate_of_mem fun c hc => by simpa using List.mem_takeWhile_imp hc
  have hsplit := congrArg List.reverse (@List.takeWhile_append_dropWhile _ (· = '0') t.reverse)
  rw [List.reverse_append, List.reverse_reverse, hzeros, List.reverse_replicate] at hsplit
  exact hsplit.symm

/-- The numeral of a positive number without its trailing zeros is a row of digits that begins with no
zero. -/
theorem dropZeros_natural {k : ℕ} (hk : 0 < k) :
    dropZeros (Text.natural k) ≠ [] ∧
      (∀ c ∈ dropZeros (Text.natural k), isAsciiDigit c = true) ∧
      (dropZeros (Text.natural k)).head? ≠ some '0' ∧
      ∀ place : ℤ, (k * 10 ^ place : ℚ) = value (dropZeros (Text.natural k)) *
        10 ^ (place + digitCount k - (dropZeros (Text.natural k)).length) := by
  obtain ⟨j, hj⟩ := exists_dropZeros (Text.natural k)
  have hvalue := Text.value_natural k
  rw [hj, Text.value_append, Text.value_zeros, List.length_replicate, add_zero] at hvalue
  have hne : dropZeros (Text.natural k) ≠ [] := by
    intro hnil
    rw [hnil, show value [] = 0 from rfl, zero_mul] at hvalue
    omega
  refine ⟨hne, fun c hc => ?_, ?_, fun place => ?_⟩
  · exact Text.isAsciiDigit_of_mem_natural (n := k) c (hj ▸ List.mem_append_left _ hc)
  · have hhead := Text.head_natural_ne_zero hk
    rwa [hj, List.head?_append_of_ne_nil _ hne] at hhead
  · have hcount : digitCount k = (dropZeros (Text.natural k)).length + j := by
      conv_lhs => rw [digitCount, hj, List.length_append, List.length_replicate]
    rw [hcount, show place + ((dropZeros (Text.natural k)).length + j : ℕ) -
      (dropZeros (Text.natural k)).length = j + place by push_cast; ring, zpow_add₀ (by norm_num),
      ← mul_assoc, zpow_natCast]
    congr 1
    exact_mod_cast hvalue.symm

/-! ## Reading back -/

theorem nearest_eq_toBinary {t : Text} {place : ℤ} (n : Bool) (hpos : 0 < value t)
    (hlow : (10 : ℚ) ^ (-400 : ℤ) ≤ value t * 10 ^ place)
    (hhigh : (value t * 10 ^ place : ℚ) < 10 ^ (400 : ℤ)) :
    nearest n t place = toBinary n (value t) place := by
  have hunit : (0 : ℚ) < 10 ^ place := by positivity
  have htop : place + digitCount (value t) - 1 < 400 := by
    rw [← zpow_lt_zpow_iff_right₀ (show (1 : ℚ) < 10 by norm_num)]
    calc (10 : ℚ) ^ (place + digitCount (value t) - 1)
        = 10 ^ ((digitCount (value t) : ℤ) - 1) * 10 ^ place := by
          rw [← zpow_add₀ (by norm_num)]
          congr 1
          ring
      _ ≤ value t * 10 ^ place := by
          gcongr
          exact ten_zpow_digitCount_le hpos
      _ < 10 ^ (400 : ℤ) := hhigh
  have hbottom : -400 < place + digitCount (value t) := by
    rw [← zpow_lt_zpow_iff_right₀ (show (1 : ℚ) < 10 by norm_num)]
    calc (10 : ℚ) ^ (-400 : ℤ) ≤ value t * 10 ^ place := hlow
      _ < 10 ^ (digitCount (value t) : ℤ) * 10 ^ place := by
          gcongr
          exact lt_ten_zpow_digitCount _
      _ = 10 ^ (place + digitCount (value t)) := by
          rw [← zpow_add₀ (by norm_num), add_comm]
  rw [nearest]
  dsimp only
  rw [if_neg hpos.ne', if_neg (by omega), if_neg (by omega)]

/-- Double precision numbers lie far within the powers of ten for which a numeral is read. -/
theorem isDouble_bounds {n : Bool} {m : ℕ} {e : ℤ} (hx : (finite n m e).IsDouble) (hm : 0 < m) :
    (10 : ℚ) ^ (-378 : ℤ) ≤ m * 2 ^ e ∧ (m * 2 ^ e : ℚ) ≤ 10 ^ (320 : ℤ) := by
  obtain ⟨hbits, hleast, hgreatest, -⟩ := hx
  constructor
  · have hone : (1 : ℚ) ≤ m := by exact_mod_cast hm
    calc (10 : ℚ) ^ (-378 : ℤ) = ((10 ^ 7) ^ 54)⁻¹ := by rw [← pow_mul]; rfl
      _ ≤ ((2 ^ 20) ^ 54)⁻¹ := by gcongr; norm_num
      _ = 2 ^ (-1080 : ℤ) := by rw [← pow_mul]; rfl
      _ ≤ 2 ^ e := zpow_le_zpow_right₀ (by norm_num) (le_trans (by decide) hleast)
      _ ≤ m * 2 ^ e := le_mul_of_one_le_left (by positivity) hone
  · have hmost : (m : ℚ) ≤ 2 ^ (53 : ℤ) := by exact_mod_cast hbits.le
    calc (m * 2 ^ e : ℚ) ≤ 2 ^ (53 : ℤ) * 2 ^ (971 : ℤ) := by
          gcongr
          · norm_num
          · exact hgreatest
      _ = (2 ^ 16) ^ 64 := by rw [← zpow_add₀ (by norm_num), ← pow_mul]; rfl
      _ ≤ (10 ^ 5) ^ 64 := by gcongr; norm_num
      _ = 10 ^ (320 : ℤ) := by rw [← pow_mul]; rfl

/-- A double precision number is the nearest one to its shortest text, which has a point or an
exponent. -/
theorem exists_numeral_of_shortest {n : Bool} {m : ℕ} {e : ℤ} (hx : (finite n m e).IsDouble) :
    ∃ w : Numeral, shortest (finite n m e) = signText n ++ w.text ∧
      nearest n w.digits w.place = finite n m e := by
  rcases Nat.eq_zero_or_pos m with rfl | hm
  · obtain ⟨-, -, -, hfull⟩ := hx
    rw [hfull.resolve_left (by norm_num)]
    exact ⟨⟨['0'], ['0'], none, by simp, isAsciiDigit_of_mem_zeros 1, .inl rfl,
      isAsciiDigit_of_mem_zeros 1, by simp⟩, rfl, rfl⟩
  · obtain ⟨k, place, hfewest, hk, hreads, hhigh, hlow⟩ := fewestDigits_spec hx hm
    obtain ⟨hne, hdigits, hhead, hvalue⟩ := dropZeros_natural hk
    obtain ⟨w, hw, hdenotes⟩ : ∃ w : Numeral, shortest (finite n m e) = signText n ++ w.text ∧
        w.Denotes (dropZeros (Text.natural k)) (place + digitCount k) := by
      rw [shortest, if_neg hm.ne']
      simp only [hfewest]
      split_ifs
      · obtain ⟨w, hw, hdenotes⟩ := exists_numeral_of_positional hne hdigits hhead
        exact ⟨w, by rw [hw], hdenotes⟩
      · obtain ⟨w, hw, hdenotes⟩ := exists_numeral_of_scientific hne hdigits hhead
        exact ⟨w, by rw [hw], hdenotes⟩
    have heq : (value w.digits * 10 ^ w.place : ℚ) = k * 10 ^ place :=
      hdenotes.trans (hvalue place).symm
    have hpos : 0 < value w.digits := by
      rcases Nat.eq_zero_or_pos (value w.digits) with hzero | hpos
      · rw [hzero, Nat.cast_zero, zero_mul, eq_comm] at heq
        exact absurd heq (by positivity)
      · exact hpos
    obtain ⟨hleast, hmost⟩ := isDouble_bounds hx hm
    refine ⟨w, hw, ?_⟩
    rw [nearest_eq_toBinary n hpos, toBinary_congr n heq]
    · exact toBinary_sign hreads
    · rw [heq, ← mul_le_mul_iff_right₀ (show (0 : ℚ) < 10 ^ 17 by norm_num)]
      calc (10 : ℚ) ^ 17 * 10 ^ (-400 : ℤ) = 10 ^ (17 + -400 : ℤ) := by
            rw [zpow_add₀ (by norm_num)]
            rfl
        _ ≤ 10 ^ (-378 : ℤ) := zpow_le_zpow_right₀ (by norm_num) (by norm_num)
        _ ≤ 10 ^ 17 * (k * 10 ^ place) := hleast.trans hlow
    · rw [heq]
      calc (k * 10 ^ place : ℚ) ≤ 2 * (m * 2 ^ e) := hhigh
        _ ≤ 10 * 10 ^ (320 : ℤ) := by gcongr; norm_num
        _ = 10 ^ (1 + 320 : ℤ) := by rw [zpow_add₀ (by norm_num), zpow_one]
        _ < 10 ^ (400 : ℤ) := zpow_lt_zpow_right₀ (by norm_num) (by norm_num)

end InsecureLinks.Decimal
