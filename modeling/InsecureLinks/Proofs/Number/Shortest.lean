import Mathlib
import InsecureLinks.Number.Decimal
import InsecureLinks.Proofs.Number.Rounding
import InsecureLinks.Proofs.Text.Numeral

/-!
# The fewest digits that read back

Seventeen digits are enough for a positive double precision number to be read back from them, so the
search for the fewest ends with digits from which it is (`fewestDigits_spec`).
-/

namespace InsecureLinks

namespace Decimal

open Binary64

/-! ## Powers of ten -/

@[simp] theorem tenTo_eq (k : ℕ) : tenTo k = 10 ^ k := rfl

theorem scaledTen_snd_pos {num den : ℕ} (hden : 0 < den) (place : ℤ) :
    0 < (scaledTen num den place).2 := by
  rw [scaledTen]
  split_ifs
  · rw [tenTo_eq]
    positivity
  · exact hden

theorem scaledTen_div (num den : ℕ) (place : ℤ) :
    ((scaledTen num den place).1 / (scaledTen num den place).2 : ℚ) = num / den / 10 ^ place := by
  rw [scaledTen]
  split_ifs with h
  · lift place to ℕ using h
    simp [div_div]
  · obtain ⟨k, rfl⟩ : ∃ k : ℕ, place = -k := ⟨(-place).toNat, by omega⟩
    simp [mul_div_right_comm]

theorem lt_ten_zpow_digitCount (n : ℕ) : (n : ℚ) < 10 ^ (digitCount n : ℤ) := by
  exact_mod_cast Text.lt_ten_pow_length_natural n

theorem ten_zpow_digitCount_le {n : ℕ} (hn : 0 < n) : (10 : ℚ) ^ (digitCount n - 1 : ℤ) ≤ n := by
  rw [zpow_sub_one₀ (by norm_num), ← div_eq_mul_inv, div_le_iff₀ (by norm_num), mul_comm]
  exact_mod_cast Text.ten_pow_length_natural_le hn

/-- The magnitude is the power of ten of the first digit. -/
theorem magnitude_spec {num den : ℕ} (hnum : 0 < num) (hden : 0 < den) :
    (10 : ℚ) ^ magnitude num den ≤ num / den ∧ (num / den : ℚ) < 10 ^ (magnitude num den + 1) := by
  have hden' : (0 : ℚ) < den := by exact_mod_cast hden
  have hhigh : (num / den : ℚ) < 10 ^ ((digitCount num : ℤ) - digitCount den + 1) := by
    rw [div_lt_iff₀ hden']
    calc (num : ℚ) < 10 ^ (digitCount num : ℤ) := lt_ten_zpow_digitCount num
      _ = 10 ^ ((digitCount num : ℤ) - digitCount den + 1) * 10 ^ (digitCount den - 1 : ℤ) := by
        rw [← zpow_add₀ (by norm_num)]
        congr 1
        ring
      _ ≤ 10 ^ ((digitCount num : ℤ) - digitCount den + 1) * den := by
        gcongr
        exact ten_zpow_digitCount_le hden
  have hlow : (10 : ℚ) ^ ((digitCount num : ℤ) - digitCount den - 1) ≤ num / den := by
    rw [le_div_iff₀ hden']
    calc (10 : ℚ) ^ ((digitCount num : ℤ) - digitCount den - 1) * den
        ≤ 10 ^ ((digitCount num : ℤ) - digitCount den - 1) * 10 ^ (digitCount den : ℤ) := by
          gcongr
          exact (lt_ten_zpow_digitCount den).le
      _ = 10 ^ (digitCount num - 1 : ℤ) := by
        rw [← zpow_add₀ (by norm_num)]
        congr 1
        ring
      _ ≤ num := ten_zpow_digitCount_le hnum
  have hguess : (scaledTen num den ((digitCount num : ℤ) - digitCount den)).1 <
      (scaledTen num den ((digitCount num : ℤ) - digitCount den)).2 ↔
        (num / den : ℚ) < 10 ^ ((digitCount num : ℤ) - digitCount den) := by
    rw [← Nat.cast_lt (α := ℚ), ← div_lt_one (by exact_mod_cast scaledTen_snd_pos hden _),
      scaledTen_div, div_lt_one (by positivity)]
  rw [magnitude]
  simp only [hguess]
  generalize (digitCount num : ℤ) - digitCount den = g at *
  split_ifs with hlt
  · exact ⟨hlow, by rwa [sub_add_cancel]⟩
  · exact ⟨not_lt.1 hlt, hhigh⟩

/-! ## Reading digits -/

theorem exists_toBinary_eq (k : ℕ) (place : ℤ) : ∃ a b : ℕ, 0 < b ∧ (a / b : ℚ) = k * 10 ^ place ∧
    ∀ n, toBinary n k place = ofQuotient n a b := by
  by_cases h : 0 ≤ place
  · refine ⟨k * tenTo place.toNat, 1, one_pos, ?_, fun n => by rw [toBinary, if_pos h]⟩
    lift place to ℕ using h
    simp
  · refine ⟨k, tenTo (-place).toNat, by rw [tenTo_eq]; positivity, ?_,
      fun n => by rw [toBinary, if_neg h]⟩
    obtain ⟨j, rfl⟩ : ∃ j : ℕ, place = -j := ⟨(-place).toNat, by omega⟩
    simp [div_eq_mul_inv]

/-- What is read depends on the number that the digits denote, and not on how they are placed. -/
theorem toBinary_congr (n : Bool) {k k' : ℕ} {place place' : ℤ}
    (h : (k * 10 ^ place : ℚ) = k' * 10 ^ place') : toBinary n k place = toBinary n k' place' := by
  obtain ⟨a, b, hb, hab, heq⟩ := exists_toBinary_eq k place
  obtain ⟨a', b', hb', hab', heq'⟩ := exists_toBinary_eq k' place'
  rw [heq, heq']
  exact ofQuotient_congr n hb hb' (by rw [hab, hab', h])

theorem toBinary_sign {n n' : Bool} {k m : ℕ} {place e : ℤ} (h : toBinary n k place = finite n m e) :
    toBinary n' k place = finite n' m e := by
  obtain ⟨a, b, -, -, heq⟩ := exists_toBinary_eq k place
  rw [heq] at h ⊢
  exact ofQuotient_sign h

/-! ## The fewest digits -/

theorem candidate?_spec {x : Binary64} {num den k : ℕ} {place : ℤ}
    (h : candidate? x num den place = some k) : toBinary false k place = x ∧
      (k = (scaledTen num den place).1 / (scaledTen num den place).2 ∨
        k = (scaledTen num den place).1 / (scaledTen num den place).2 + 1) := by
  rw [candidate?] at h
  dsimp only at h
  split at h
  · next hbelow habove =>
    cases h
    rw [roundQuotient]
    split_ifs
    · exact ⟨beq_iff_eq.1 hbelow, .inl rfl⟩
    · exact ⟨beq_iff_eq.1 habove, .inr rfl⟩
    · exact ⟨beq_iff_eq.1 hbelow, .inl rfl⟩
    · exact ⟨beq_iff_eq.1 habove, .inr rfl⟩
  · next hbelow _ =>
    cases h
    exact ⟨beq_iff_eq.1 hbelow, .inl rfl⟩
  · next _ habove =>
    cases h
    exact ⟨beq_iff_eq.1 habove, .inr rfl⟩
  · cases h

section Fewest

variable {m : ℕ} {e : ℤ}

/-- Of the multiples of a power of ten that are next to a number, one is within half of that power. -/
theorem exists_next_multiple {n d : ℕ} (hd : 0 < d) :
    ∃ k, (k = n / d ∨ k = n / d + 1) ∧ (n / d : ℚ) - 1 / 2 ≤ k ∧ (k : ℚ) ≤ n / d + 1 / 2 := by
  have hd' : (0 : ℚ) < d := by exact_mod_cast hd
  have hlow : ((n / d : ℕ) : ℚ) ≤ n / d := Nat.cast_div_le
  have hhigh : (n / d : ℚ) < (n / d : ℕ) + 1 := by
    rw [div_lt_iff₀ hd']
    exact_mod_cast (mul_comm d _ ▸ Nat.lt_mul_div_succ n hd)
  by_cases hhalf : (n / d : ℚ) ≤ (n / d : ℕ) + 1 / 2
  · exact ⟨n / d, .inl rfl, by linarith, by linarith⟩
  · push Not at hhalf
    refine ⟨n / d + 1, .inr rfl, ?_, ?_⟩
    · push_cast
      linarith
    · push_cast
      linarith

/-- The multiple of a small enough power of ten that is nearest to a number lies nearer to it than to
the numbers next to it. -/
theorem isNear_of_place (hbits : m < 2 ^ 53) {place : ℤ} {k : ℕ}
    (hplace : (10 : ℚ) ^ (place + 16) ≤ m * 2 ^ e)
    (hlow : (m * 2 ^ e / 10 ^ place : ℚ) - 1 / 2 ≤ k)
    (hhigh : (k : ℚ) ≤ m * 2 ^ e / 10 ^ place + 1 / 2) : IsNear m e (k * 10 ^ place) := by
  have hunit : (0 : ℚ) < 10 ^ place := by positivity
  have hpower : (0 : ℚ) < 2 ^ e := by positivity
  have hhalf : (2 : ℚ) ^ (e - 1) = 2 ^ e / 2 := zpow_sub_one₀ (by norm_num) e
  have hquarter : (2 : ℚ) ^ (e - 2) = 2 ^ e / 4 := by
    rw [zpow_sub₀ (by norm_num)]
    norm_num
  rw [zpow_add₀ (by norm_num), show (10 : ℚ) ^ (16 : ℤ) = 10 ^ 16 from rfl] at hplace
  rw [tsub_le_iff_right, div_le_iff₀ hunit] at hlow
  rw [← sub_le_iff_le_add, le_div_iff₀ hunit] at hhigh
  have hm : (m : ℚ) * 2 ^ e ≤ 2 ^ 53 * 2 ^ e := by
    gcongr
    exact_mod_cast hbits.le
  refine ⟨?_, ?_, ?_⟩
  · rw [hhalf]
    linarith
  · rw [hhalf]
    linarith
  · rintro rfl -
    rw [hquarter]
    push_cast at hplace hlow ⊢
    linarith

theorem candidate?_ne_none (hx : (finite false m e).IsDouble) (hm : 0 < m) {num den : ℕ} {place : ℤ}
    (hden : 0 < den) (hq : (num / den : ℚ) = m * 2 ^ e)
    (hplace : (10 : ℚ) ^ (place + 16) ≤ m * 2 ^ e) :
    candidate? (finite false m e) num den place ≠ none := by
  have hd := @scaledTen_snd_pos num den hden place
  obtain ⟨k, hk, hlow, hhigh⟩ := exists_next_multiple (n := (scaledTen num den place).1) hd
  rw [scaledTen_div, hq] at hlow hhigh
  have hreads : toBinary false k place = finite false m e := by
    obtain ⟨a, b, hb, hab, heq⟩ := exists_toBinary_eq k place
    rw [heq]
    exact ofQuotient_of_isNear hx hm hb (hab ▸ isNear_of_place hx.1 hplace hlow hhigh)
  intro hnone
  rw [candidate?] at hnone
  dsimp only at hnone
  split at hnone
  · cases hnone
  · cases hnone
  · cases hnone
  · next hbelow habove =>
    rcases hk with rfl | rfl
    · exact absurd hreads (by simpa using hbelow)
    · exact absurd hreads (by simpa using habove)

/-- The search ends with digits if it goes on to seventeen of them. -/
theorem exists_candidate_of_fewestFrom (hx : (finite false m e).IsDouble) (hm : 0 < m) {num den : ℕ}
    {top : ℤ} (hden : 0 < den) (hq : (num / den : ℚ) = m * 2 ^ e) (htop : (10 : ℚ) ^ top ≤ m * 2 ^ e)
    {fuel count : ℕ} (hcount : 1 ≤ count) (hfuel : 0 < fuel) (hsum : fuel + count = 18) :
    ∃ k place, fewestFrom (finite false m e) num den top fuel count = (k, place) ∧
      candidate? (finite false m e) num den place = some k ∧ place ≤ top ∧ top - 16 ≤ place := by
  induction fuel generalizing count with
  | zero => omega
  | succ fuel ih =>
    rw [fewestFrom]
    rcases hcandidate : candidate? (finite false m e) num den (top - count + 1) with _ | k
    · have hmore : 0 < fuel := by
        by_contra hlast
        have hseventeen : count = 17 := by omega
        subst hseventeen
        refine candidate?_ne_none hx hm hden hq ?_ hcandidate
        rwa [show top - (17 : ℕ) + 1 + 16 = top by push_cast; ring]
      exact ih (by omega) hmore (by omega)
    · exact ⟨k, _, rfl, hcandidate, by omega, by omega⟩

/-- The fewest digits denote a positive number that reads back, not far from the one they are for. -/
theorem fewestDigits_spec (hx : (finite false m e).IsDouble) (hm : 0 < m) :
    ∃ k place, fewestDigits m e = (k, place) ∧ 0 < k ∧ toBinary false k place = finite false m e ∧
      (k * 10 ^ place : ℚ) ≤ 2 * (m * 2 ^ e) ∧ (m * 2 ^ e : ℚ) ≤ 10 ^ 17 * (k * 10 ^ place) := by
  have hden := quotient_snd_pos m e
  have hq := quotient_div m e
  have hpositive : (0 : ℚ) < m * 2 ^ e := by positivity
  have hnum : 0 < (quotient m e).1 := by
    rw [← hq, div_pos_iff_of_pos_right (by exact_mod_cast hden)] at hpositive
    exact_mod_cast hpositive
  obtain ⟨hlow, hhigh⟩ := magnitude_spec hnum hden
  rw [hq] at hlow hhigh
  obtain ⟨k, place, hfewest, hcandidate, hle, hge⟩ :=
    exists_candidate_of_fewestFrom hx hm hden hq hlow le_rfl (by norm_num : 0 < 17) rfl
  obtain ⟨hreads, hk⟩ := candidate?_spec hcandidate
  have hkpos : 0 < k := by
    rcases Nat.eq_zero_or_pos k with rfl | hkpos
    · obtain ⟨a, b, hb, hab, heq⟩ := exists_toBinary_eq 0 place
      have ha : a = 0 := by
        rw [Nat.cast_zero, zero_mul, div_eq_zero_iff,
          or_iff_left (show (b : ℚ) ≠ 0 by exact_mod_cast hb.ne')] at hab
        exact_mod_cast hab
      rw [heq, ofQuotient, if_pos ha] at hreads
      cases hreads
      exact absurd hm (lt_irrefl 0)
    · exact hkpos
  have hunit : (0 : ℚ) < 10 ^ place := by positivity
  refine ⟨k, place, hfewest, hkpos, hreads, ?_, ?_⟩
  · have hfloor : (k : ℚ) ≤ m * 2 ^ e / 10 ^ place + 1 := by
      have hdiv := @Nat.cast_div_le ℚ _ _ _ (scaledTen (quotient m e).1 (quotient m e).2 place).1
        (scaledTen (quotient m e).1 (quotient m e).2 place).2
      rw [scaledTen_div, hq] at hdiv
      rcases hk with rfl | rfl
      · linarith
      · push_cast
        linarith
    rw [← sub_le_iff_le_add, le_div_iff₀ hunit] at hfloor
    have htop : (10 : ℚ) ^ place ≤ 10 ^ magnitude (quotient m e).1 (quotient m e).2 :=
      zpow_le_zpow_right₀ (by norm_num) hle
    linarith
  · have hone : (1 : ℚ) ≤ k := by exact_mod_cast hkpos
    calc (m * 2 ^ e : ℚ) ≤ 10 ^ (17 + place) :=
          hhigh.le.trans (zpow_le_zpow_right₀ (by norm_num) (by omega))
      _ = 10 ^ 17 * (1 * 10 ^ place) := by
          rw [zpow_add₀ (by norm_num), one_mul]
          rfl
      _ ≤ 10 ^ 17 * (k * 10 ^ place) := by gcongr

end Fewest

end Decimal

end InsecureLinks
