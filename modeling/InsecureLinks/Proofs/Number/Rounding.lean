import Mathlib
import InsecureLinks.Number.Binary64

/-!
# Rounding to double precision

A quotient that lies nearer to a double precision number than to the numbers next to it is rounded to
that number (`ofQuotient_of_isNear`), and a quotient that is one stays what it is
(`ofQuotient_of_eq`).
-/

namespace InsecureLinks.Binary64

/-- Whether a number is written as double precision numbers are: with a full significand, unless the
exponent is the least one. -/
def IsDouble : Binary64 → Prop
  | finite _ m e =>
    m < 2 ^ 53 ∧ leastExponent ≤ e ∧ e ≤ greatestExponent ∧ (2 ^ 52 ≤ m ∨ e = leastExponent)
  | infinite _ => True
  | undefined => True

/-- Whether a number is finite and written as double precision numbers are. -/
def IsFiniteDouble : Binary64 → Prop
  | finite n m e => (finite n m e).IsDouble
  | infinite _ => False
  | undefined => False

theorem IsFiniteDouble.isDouble {x : Binary64} (h : x.IsFiniteDouble) : x.IsDouble := by
  cases x with
  | finite n m e => exact h
  | infinite n => trivial
  | undefined => trivial

/-! ## Quotients -/

theorem scaled_snd_pos {num den : ℕ} (hden : 0 < den) (e : ℤ) : 0 < (scaled num den e).2 := by
  rw [scaled]
  split_ifs
  · rw [Nat.shiftLeft_eq]
    positivity
  · exact hden

theorem scaled_div (num den : ℕ) (e : ℤ) :
    ((scaled num den e).1 / (scaled num den e).2 : ℚ) = num / den / 2 ^ e := by
  rw [scaled]
  split_ifs with he
  · lift e to ℕ using he
    simp [Nat.shiftLeft_eq, div_div]
  · obtain ⟨k, rfl⟩ : ∃ k : ℕ, e = -k := ⟨(-e).toNat, by omega⟩
    simp [Nat.shiftLeft_eq, mul_div_right_comm]

theorem quotient_snd_pos (m : ℕ) (e : ℤ) : 0 < (quotient m e).2 := by
  rw [quotient]
  split_ifs
  · exact Nat.one_pos
  · rw [Nat.shiftLeft_eq]
    positivity

theorem quotient_div (m : ℕ) (e : ℤ) : ((quotient m e).1 / (quotient m e).2 : ℚ) = m * 2 ^ e := by
  rw [quotient]
  split_ifs with he
  · lift e to ℕ using he
    simp [Nat.shiftLeft_eq]
  · obtain ⟨k, rfl⟩ : ∃ k : ℕ, e = -k := ⟨(-e).toNat, by omega⟩
    simp [Nat.shiftLeft_eq, div_eq_mul_inv]

theorem lt_shiftLeft_iff {n d : ℕ} (hd : 0 < d) (k : ℕ) :
    n < d <<< k ↔ (n / d : ℚ) < 2 ^ k := by
  rw [div_lt_iff₀ (by exact_mod_cast hd), Nat.shiftLeft_eq, mul_comm]
  exact_mod_cast Iff.rfl

theorem lt_two_pow_log2 (n : ℕ) : (n : ℚ) < 2 ^ (n.log2 + 1 : ℤ) := by
  exact_mod_cast Nat.lt_log2_self (n := n)

theorem two_pow_log2_le {n : ℕ} (hn : n ≠ 0) : (2 : ℚ) ^ (n.log2 : ℤ) ≤ n := by
  exact_mod_cast Nat.log2_self_le hn

/-! ## The exponent -/

theorem exponentOf_eq_max {num den : ℕ} (hden : 0 < den) :
    exponentOf num den = max leastExponent
      (if (num / den : ℚ) < 2 ^ ((num.log2 : ℤ) - den.log2) then (num.log2 : ℤ) - den.log2 - 53
        else (num.log2 : ℤ) - den.log2 - 52) := by
  have hguess : (scaled num den ((num.log2 : ℤ) - den.log2 - 52)).1 <
      (scaled num den ((num.log2 : ℤ) - den.log2 - 52)).2 <<< 52 ↔
        (num / den : ℚ) < 2 ^ ((num.log2 : ℤ) - den.log2) := by
    rw [lt_shiftLeft_iff (scaled_snd_pos hden _), scaled_div, div_lt_iff₀ (by positivity),
      ← zpow_natCast, ← zpow_add₀ (by norm_num)]
    norm_num
  rw [exponentOf]
  simp only [hguess]
  congr 1
  split_ifs
  · ring
  · rfl

/-- The exponent gives a significand that is not too long, and a full one unless it is the least. -/
theorem exponentOf_spec {num den : ℕ} (hnum : 0 < num) (hden : 0 < den) :
    leastExponent ≤ exponentOf num den ∧ (num / den : ℚ) < 2 ^ (exponentOf num den + 53) ∧
      (exponentOf num den ≠ leastExponent → 2 ^ (exponentOf num den + 52) ≤ (num / den : ℚ)) := by
  have hden' : (0 : ℚ) < den := by exact_mod_cast hden
  have hhigh : (num / den : ℚ) < 2 ^ ((num.log2 : ℤ) - den.log2 + 1) := by
    rw [div_lt_iff₀ hden']
    calc (num : ℚ) < 2 ^ (num.log2 + 1 : ℤ) := lt_two_pow_log2 num
      _ = 2 ^ ((num.log2 : ℤ) - den.log2 + 1) * 2 ^ (den.log2 : ℤ) := by
        rw [← zpow_add₀ (by norm_num)]
        congr 1
        ring
      _ ≤ 2 ^ ((num.log2 : ℤ) - den.log2 + 1) * den := by
        gcongr
        exact two_pow_log2_le hden.ne'
  have hlow : 2 ^ ((num.log2 : ℤ) - den.log2 - 1) < (num / den : ℚ) := by
    rw [lt_div_iff₀ hden']
    calc (2 : ℚ) ^ ((num.log2 : ℤ) - den.log2 - 1) * den
        < 2 ^ ((num.log2 : ℤ) - den.log2 - 1) * 2 ^ (den.log2 + 1 : ℤ) := by
          gcongr
          exact lt_two_pow_log2 den
      _ = 2 ^ (num.log2 : ℤ) := by
        rw [← zpow_add₀ (by norm_num)]
        congr 1
        ring
      _ ≤ num := two_pow_log2_le hnum.ne'
  rw [exponentOf_eq_max hden]
  generalize (num.log2 : ℤ) - den.log2 = g at *
  have hmono : ∀ {i j : ℤ}, i ≤ j → (2 : ℚ) ^ i ≤ 2 ^ j := fun h => zpow_le_zpow_right₀ (by norm_num) h
  split_ifs with hlt
  · refine ⟨le_max_left _ _, hlt.trans_le (hmono (by omega)), fun hne => ?_⟩
    rw [max_eq_right (by omega)]
    exact (hmono (by omega)).trans hlow.le
  · refine ⟨le_max_left _ _, hhigh.trans_le (hmono (by omega)), fun hne => ?_⟩
    rw [max_eq_right (by omega)]
    exact (hmono (by omega)).trans (not_lt.1 hlt)

theorem exponentOf_eq {num den : ℕ} {e : ℤ} (hnum : 0 < num) (hden : 0 < den)
    (he : leastExponent ≤ e) (hlt : (num / den : ℚ) < 2 ^ (e + 53))
    (hle : e ≠ leastExponent → 2 ^ (e + 52) ≤ (num / den : ℚ)) : exponentOf num den = e := by
  obtain ⟨hE, hlt', hle'⟩ := exponentOf_spec hnum hden
  generalize exponentOf num den = E at *
  by_contra hne
  rcases lt_or_gt_of_ne hne with h | h
  · have hcontra : (2 : ℚ) ^ (e + 52) < 2 ^ (E + 53) := (hle (by omega)).trans_lt hlt'
    rw [zpow_lt_zpow_iff_right₀ (by norm_num)] at hcontra
    omega
  · have hcontra : (2 : ℚ) ^ (E + 52) < 2 ^ (e + 53) := (hle' (by omega)).trans_lt hlt
    rw [zpow_lt_zpow_iff_right₀ (by norm_num)] at hcontra
    omega

/-! ## The significand -/

/-- A quotient is rounded to the number that it is nearest to. -/
theorem roundQuotient_eq {n d k : ℕ} (hd : 0 < d) (hlow : (k : ℚ) - 1 / 2 < n / d)
    (hhigh : (n / d : ℚ) < k + 1 / 2) : roundQuotient n d = k := by
  have hd' : (0 : ℚ) < d := by exact_mod_cast hd
  rw [lt_div_iff₀ hd'] at hlow
  rw [div_lt_iff₀ hd'] at hhigh
  have hlow : 2 * k * d < 2 * n + d := by
    have : (2 * k * d : ℚ) < 2 * n + d := by linarith
    exact_mod_cast this
  have hhigh : 2 * n < 2 * k * d + d := by
    have : (2 * n : ℚ) < 2 * k * d + d := by linarith
    exact_mod_cast this
  have hn : d * (n / d) + n % d = n := Nat.div_add_mod n d
  have hrem : n % d < d := Nat.mod_lt n hd
  rw [roundQuotient]
  generalize n / d = q, n % d = r at *
  subst hn
  -- The distance of the quotient from `k` decides on which side of the half it is.
  have hq : q = k ∧ 2 * r < d ∨ q + 1 = k ∧ d < 2 * r := by
    rcases lt_trichotomy q k with h | rfl | h
    · obtain ⟨j, rfl⟩ := Nat.exists_eq_add_of_lt h
      rcases j with _ | j
      · exact .inr ⟨rfl, by nlinarith⟩
      · nlinarith
    · exact .inl ⟨rfl, by nlinarith⟩
    · obtain ⟨j, rfl⟩ := Nat.exists_eq_add_of_lt h
      nlinarith
  obtain ⟨rfl, hless⟩ | ⟨rfl, hmore⟩ := hq
  · rw [if_pos hless]
  · rw [if_neg (by omega), if_pos hmore]

/-! ## What a rounded quotient depends on -/

section Congr

variable {num den num' den' : ℕ}

theorem roundQuotient_congr (hden : 0 < den) (hden' : 0 < den')
    (h : num * den' = num' * den) : roundQuotient num den = roundQuotient num' den' := by
  have hquotient : num / den = num' / den' := by
    rw [← Nat.mul_div_mul_right num den hden', h, mul_comm den den',
      Nat.mul_div_mul_right num' den' hden]
  have hrest : num % den * den' = num' % den' * den := by
    have hnum := Nat.div_add_mod num den
    have hnum' := Nat.div_add_mod num' den'
    rw [hquotient] at hnum
    generalize num' / den' = q, num % den = r, num' % den' = r' at *
    subst hnum hnum'
    linarith
  have hless : 2 * (num % den) < den ↔ 2 * (num' % den') < den' :=
    calc 2 * (num % den) < den ↔ 2 * (num % den) * den' < den * den' :=
          (Nat.mul_lt_mul_right hden').symm
      _ ↔ 2 * (num' % den') * den < den' * den := by
          rw [mul_assoc, hrest, ← mul_assoc, mul_comm den den']
      _ ↔ 2 * (num' % den') < den' := Nat.mul_lt_mul_right hden
  have hmore : den < 2 * (num % den) ↔ den' < 2 * (num' % den') :=
    calc den < 2 * (num % den) ↔ den * den' < 2 * (num % den) * den' :=
          (Nat.mul_lt_mul_right hden').symm
      _ ↔ den' * den < 2 * (num' % den') * den := by
          rw [mul_assoc, hrest, ← mul_assoc, mul_comm den den']
      _ ↔ den' < 2 * (num' % den') := Nat.mul_lt_mul_right hden
  simp only [roundQuotient, hless, hmore, hquotient]

theorem exponentOf_congr (hnum : 0 < num) (hden : 0 < den) (hnum' : 0 < num') (hden' : 0 < den')
    (h : (num / den : ℚ) = num' / den') : exponentOf num den = exponentOf num' den' := by
  obtain ⟨hleast, hlt, hle⟩ := exponentOf_spec hnum' hden'
  rw [← h] at hlt hle
  exact exponentOf_eq hnum hden hleast hlt hle

/-- The rounding of a quotient does not depend on how the quotient is written. -/
theorem ofQuotient_congr (n : Bool) (hden : 0 < den) (hden' : 0 < den')
    (h : (num / den : ℚ) = num' / den') : ofQuotient n num den = ofQuotient n num' den' := by
  have hcross : ∀ {a b c d : ℕ}, 0 < b → 0 < d → (a / b : ℚ) = c / d → a * d = c * b := by
    intro a b c d hb hd heq
    rw [div_eq_div_iff (by exact_mod_cast hb.ne') (by exact_mod_cast hd.ne')] at heq
    exact_mod_cast heq
  have hmul := hcross hden hden' h
  rcases Nat.eq_zero_or_pos num with rfl | hnum
  · rw [zero_mul, eq_comm, Nat.mul_eq_zero, or_iff_left hden.ne'] at hmul
    rw [ofQuotient, ofQuotient, if_pos rfl, if_pos hmul]
  · have hnum' : 0 < num' := by
      rcases Nat.eq_zero_or_pos num' with rfl | hnum'
      · rw [zero_mul, Nat.mul_eq_zero, or_iff_left hden'.ne'] at hmul
        exact absurd hmul hnum.ne'
      · exact hnum'
    have hexponent := exponentOf_congr hnum hden hnum' hden' h
    have hround : ∀ e, roundQuotient (scaled num den e).1 (scaled num den e).2 =
        roundQuotient (scaled num' den' e).1 (scaled num' den' e).2 := fun e =>
      roundQuotient_congr (scaled_snd_pos hden e) (scaled_snd_pos hden' e)
        (hcross (scaled_snd_pos hden e) (scaled_snd_pos hden' e)
          (by rw [scaled_div, scaled_div, h]))
    simp only [ofQuotient, if_neg hnum.ne', if_neg hnum'.ne', hexponent, hround]

/-- A quotient is rounded to a significand and an exponent, whatever its sign. -/
theorem exists_ofQuotient_eq (num den : ℕ) : ∃ m e, ∀ n, ofQuotient n num den =
    if greatestExponent < e then infinite n else finite n m e := by
  by_cases hnum : num = 0
  · refine ⟨0, leastExponent, fun n => ?_⟩
    rw [ofQuotient, if_pos hnum, if_neg (by decide)]
  · exact ⟨_, _, fun n => by rw [ofQuotient, if_neg hnum]⟩

theorem ofQuotient_sign {n n' : Bool} {m : ℕ} {e : ℤ}
    (h : ofQuotient n num den = finite n m e) : ofQuotient n' num den = finite n' m e := by
  obtain ⟨k, i, hsign⟩ := exists_ofQuotient_eq num den
  rw [hsign] at h ⊢
  split_ifs at h ⊢
  cases h
  rfl

end Congr

/-! ## Rounding -/

/-- Whether a quotient lies nearer to `m * 2 ^ e` than to the numbers next to it.  Below a power of two
these are closer together, unless the exponent is the least. -/
structure IsNear (m : ℕ) (e : ℤ) (q : ℚ) : Prop where
  lower : m * 2 ^ e - 2 ^ (e - 1) < q
  upper : q < m * 2 ^ e + 2 ^ (e - 1)
  below : m = 2 ^ 52 → e ≠ leastExponent → m * 2 ^ e - 2 ^ (e - 2) < q

theorem isNear_self (m : ℕ) (e : ℤ) : IsNear m e (m * 2 ^ e) where
  lower := sub_lt_self _ (by positivity)
  upper := lt_add_of_pos_right _ (by positivity)
  below _ _ := sub_lt_self _ (by positivity)

section Near

variable {n : Bool} {m num den : ℕ} {e : ℤ}

theorem ofQuotient_eq_of_exponent (hnum : 0 < num) (hden : 0 < den)
    (hexponent : exponentOf num den = e) (hlow : (m : ℚ) - 1 / 2 < num / den / 2 ^ e)
    (hhigh : (num / den / 2 ^ e : ℚ) < m + 1 / 2) :
    ofQuotient n num den =
      if greatestExponent < (if m = 2 ^ 53 then e + 1 else e) then infinite n
      else finite n (if m = 2 ^ 53 then m / 2 else m) (if m = 2 ^ 53 then e + 1 else e) := by
  rw [← scaled_div] at hlow hhigh
  have hround := roundQuotient_eq (scaled_snd_pos hden e) hlow hhigh
  rw [ofQuotient, if_neg hnum.ne']
  simp only [hexponent, hround]
  rw [show 1 <<< significandBits = 2 ^ 53 from rfl]
  split_ifs with hcarry hlarge
  · rfl
  · rfl
  · rfl
  · rfl

/-- A quotient that is not below the numbers with its exponent is rounded to the nearest of them. -/
theorem ofQuotient_of_full (hbits : m < 2 ^ 53) (hleast : leastExponent ≤ e)
    (hgreatest : e ≤ greatestExponent) (hnum : 0 < num) (hden : 0 < den)
    (hnear : IsNear m e (num / den)) (hfull : e ≠ leastExponent → 2 ^ (e + 52) ≤ (num / den : ℚ)) :
    ofQuotient n num den = finite n m e := by
  have hunit : (0 : ℚ) < 2 ^ e := by positivity
  have hhalf : (2 : ℚ) ^ (e - 1) = 2 ^ e / 2 := zpow_sub_one₀ (by norm_num) e
  obtain ⟨hlower, hupper, -⟩ := hnear
  rw [hhalf] at hlower hupper
  have hlt : (num / den : ℚ) < 2 ^ (e + 53) := by
    have hm : (m : ℚ) + 1 ≤ 2 ^ 53 := by exact_mod_cast hbits
    calc (num / den : ℚ) < m * 2 ^ e + 2 ^ e / 2 := hupper
      _ < (m + 1) * 2 ^ e := by linarith
      _ ≤ 2 ^ 53 * 2 ^ e := by gcongr
      _ = 2 ^ (e + 53) := by rw [zpow_add₀ (by norm_num), mul_comm]; rfl
  have hlow : (m : ℚ) - 1 / 2 < num / den / 2 ^ e := by
    rw [lt_div_iff₀ hunit]
    linarith
  have hhigh : (num / den / 2 ^ e : ℚ) < m + 1 / 2 := by
    rw [div_lt_iff₀ hunit]
    linarith
  rw [ofQuotient_eq_of_exponent hnum hden (exponentOf_eq hnum hden hleast hlt hfull) hlow hhigh,
    if_neg hbits.ne, if_neg hbits.ne, if_neg (not_lt.2 hgreatest)]

/-- A quotient just below a power of two is rounded up to it. -/
theorem ofQuotient_of_below (hleast : leastExponent < e) (hgreatest : e ≤ greatestExponent)
    (hnum : 0 < num) (hden : 0 < den) (hlower : 2 ^ 52 * 2 ^ e - 2 ^ (e - 2) < (num / den : ℚ))
    (hlt : (num / den : ℚ) < 2 ^ (e + 52)) : ofQuotient n num den = finite n (2 ^ 52) e := by
  have hunit : (0 : ℚ) < 2 ^ (e - 1) := by positivity
  have hone : (2 : ℚ) ^ e = 2 * 2 ^ (e - 1) := by rw [zpow_sub_one₀ (by norm_num)]; ring
  have hquarter : (2 : ℚ) ^ (e - 2) = 2 ^ (e - 1) / 2 := by
    rw [show e - 2 = e - 1 - 1 by ring, zpow_sub_one₀ (by norm_num)]
    rfl
  have hpower : (2 : ℚ) ^ (e + 52) = 2 ^ 53 * 2 ^ (e - 1) := by
    rw [show e + 52 = 53 + (e - 1) by ring, zpow_add₀ (by norm_num)]
    rfl
  rw [hone, hquarter] at hlower
  have hexponent : exponentOf num den = e - 1 := by
    refine exponentOf_eq hnum hden (by omega) ?_ fun _ => ?_
    · rwa [show e - 1 + 53 = e + 52 by ring]
    · calc (2 : ℚ) ^ (e - 1 + 52) = 2 ^ 52 * 2 ^ (e - 1) := by
            rw [zpow_add₀ (by norm_num), mul_comm]
            rfl
        _ ≤ num / den := by linarith
  have hlow : ((2 ^ 53 : ℕ) : ℚ) - 1 / 2 < num / den / 2 ^ (e - 1) := by
    rw [lt_div_iff₀ hunit]
    push_cast
    linarith
  have hhigh : (num / den / 2 ^ (e - 1) : ℚ) < ((2 ^ 53 : ℕ) : ℚ) + 1 / 2 := by
    rw [div_lt_iff₀ hunit]
    push_cast
    linarith
  rw [ofQuotient_eq_of_exponent hnum hden hexponent hlow hhigh, if_pos rfl, if_pos rfl,
    sub_add_cancel, if_neg (not_lt.2 hgreatest)]
  norm_num

/-- What lies nearest to a double precision number is rounded to it. -/
theorem ofQuotient_of_isNear (hx : (finite n m e).IsDouble) (hm : 0 < m) (hden : 0 < den)
    (hnear : IsNear m e (num / den)) : ofQuotient n num den = finite n m e := by
  obtain ⟨hbits, hleast, hgreatest, hfull⟩ := hx
  have hunit : (0 : ℚ) < 2 ^ e := by positivity
  have hhalf : (2 : ℚ) ^ (e - 1) = 2 ^ e / 2 := zpow_sub_one₀ (by norm_num) e
  have hpower : (2 : ℚ) ^ (e + 52) = 2 ^ 52 * 2 ^ e := by
    rw [zpow_add₀ (by norm_num), mul_comm]
    rfl
  have hlower := hnear.lower
  rw [hhalf] at hlower
  have hnum : 0 < num := by
    have hone : (1 : ℚ) ≤ m := by exact_mod_cast hm
    have hq : (0 : ℚ) < num / den := by nlinarith
    rcases Nat.eq_zero_or_pos num with rfl | h
    · simp at hq
    · exact h
  by_cases hbelow : e ≠ leastExponent ∧ (num / den : ℚ) < 2 ^ (e + 52)
  · -- Only a power of two has a quotient with a lesser exponent near it.
    obtain ⟨hne, hlt⟩ := hbelow
    have hpow : m = 2 ^ 52 := by
      have hle : 2 ^ 52 ≤ m := hfull.resolve_right hne
      by_contra hm'
      have hmore : (2 ^ 52 + 1 : ℚ) ≤ m := by exact_mod_cast (show 2 ^ 52 + 1 ≤ m by omega)
      nlinarith
    subst hpow
    exact ofQuotient_of_below (by omega) hgreatest hnum hden
      (by exact_mod_cast hnear.below rfl hne) hlt
  · push Not at hbelow
    exact ofQuotient_of_full hbits hleast hgreatest hnum hden hnear hbelow

/-- A quotient that is a double precision number stays what it is. -/
theorem ofQuotient_of_eq (hx : (finite n m e).IsDouble) (hden : 0 < den)
    (heq : (num / den : ℚ) = m * 2 ^ e) : ofQuotient n num den = finite n m e := by
  rcases Nat.eq_zero_or_pos m with rfl | hm
  · have hnum : num = 0 := by
      have hden' : (den : ℚ) ≠ 0 := by exact_mod_cast hden.ne'
      rw [Nat.cast_zero, zero_mul, div_eq_zero_iff, or_iff_left hden'] at heq
      exact_mod_cast heq
    obtain ⟨-, -, -, hfull⟩ := hx
    rw [ofQuotient, if_pos hnum, hfull.resolve_left (by norm_num)]
  · exact ofQuotient_of_isNear hx hm hden (heq ▸ isNear_self m e)

end Near

end InsecureLinks.Binary64
