import Mathlib
import InsecureLinks.Text.DecimalDigit

/-!
# Numerals

A whole number is got back from its numeral (`integer_injective`), which is made of digits and
perhaps a minus sign (`mem_integer`).  A natural number is the value of its numeral
(`value_natural`).
-/

namespace InsecureLinks.Text

/-! ## Digits -/

/-- Whether a character is the digit of some number below sixteen. -/
def IsDigit (c : Char) : Prop := ∃ d < 16, c = digit d

theorem IsDigit.toNat_range {c : Char} (h : IsDigit c) : 48 ≤ c.toNat ∧ c.toNat < 0x80 := by
  obtain ⟨d, hd, rfl⟩ := h
  have hrange : ∀ d < 16, 48 ≤ (digit d).toNat ∧ (digit d).toNat < 0x80 := by decide
  exact hrange d hd

theorem digit_injective {a b : ℕ} (ha : a < 10) (hb : b < 10) (h : digit a = digit b) : a = b := by
  have hall : ∀ a < 10, ∀ b < 10, digit a = digit b → a = b := by decide
  exact hall a ha b hb h

theorem digit_ne_minus {d : ℕ} (h : d < 16) : digit d ≠ '-' := by
  intro hminus
  have hrange := (show IsDigit '-' from ⟨d, h, hminus.symm⟩).toNat_range
  exact absurd hrange.1 (by decide)

/-! ## Natural numbers -/

theorem natural_of_lt {n : ℕ} (h : n < 10) : natural n = [digit n] := by
  rw [natural, if_pos h]

theorem natural_of_ge {n : ℕ} (h : ¬n < 10) : natural n = natural (n / 10) ++ [digit (n % 10)] := by
  rw [natural, if_neg h]

theorem mem_natural {n : ℕ} {c : Char} (h : c ∈ natural n) : ∃ d < 10, c = digit d := by
  induction n using natural.induct with
  | case1 n hn =>
    rw [natural_of_lt hn] at h
    exact ⟨n, hn, List.mem_singleton.1 h⟩
  | case2 n hn ih =>
    rw [natural_of_ge hn] at h
    rcases List.mem_append.1 h with h | h
    · exact ih h
    · exact ⟨n % 10, Nat.mod_lt _ (by decide), List.mem_singleton.1 h⟩

theorem natural_ne_nil (n : ℕ) : natural n ≠ [] := by
  by_cases hn : n < 10
  · simp [natural_of_lt hn]
  · simp [natural_of_ge hn]

theorem singleton_ne_natural_append (a : Char) (n : ℕ) (b : Char) : [a] ≠ natural n ++ [b] := by
  intro h
  have hnil : [] = natural n := (List.append_inj' (show [] ++ [a] = natural n ++ [b] from h) rfl).1
  exact natural_ne_nil n hnil.symm

theorem natural_injective : Function.Injective natural := by
  intro n m h
  induction n using natural.induct generalizing m with
  | case1 n hn =>
    by_cases hm : m < 10
    · rw [natural_of_lt hn, natural_of_lt hm] at h
      exact digit_injective hn hm (List.singleton_inj.1 h)
    · rw [natural_of_lt hn, natural_of_ge hm] at h
      exact absurd h (singleton_ne_natural_append _ _ _)
  | case2 n hn ih =>
    by_cases hm : m < 10
    · rw [natural_of_ge hn, natural_of_lt hm] at h
      exact absurd h.symm (singleton_ne_natural_append _ _ _)
    · rw [natural_of_ge hn, natural_of_ge hm] at h
      obtain ⟨hquotient, hdigit⟩ := List.append_inj' h rfl
      have hquotient : n / 10 = m / 10 := ih hquotient
      have hrest : n % 10 = m % 10 :=
        digit_injective (Nat.mod_lt _ (by decide)) (Nat.mod_lt _ (by decide))
          (List.singleton_inj.1 hdigit)
      omega

theorem toNat_digit {d : ℕ} (h : d < 10) : (digit d).toNat = 48 + d := by
  have hall : ∀ d < 10, (digit d).toNat = 48 + d := by decide
  exact hall d h

/-- A number is got back from its numeral. -/
theorem value_natural (n : ℕ) : value (natural n) = n := by
  induction n using natural.induct with
  | case1 n hn =>
    rw [natural_of_lt hn, value, List.foldl_cons, List.foldl_nil, toNat_digit hn]
    omega
  | case2 n hn ih =>
    rw [natural_of_ge hn, value, List.foldl_append, ← value, ih, List.foldl_cons, List.foldl_nil,
      toNat_digit (Nat.mod_lt n (by decide))]
    omega

/-- A property of the ten digits holds of every character of a numeral. -/
theorem forall_mem_natural {P : Char → Prop} (h : ∀ d < 10, P (digit d)) (n : ℕ) :
    ∀ c ∈ natural n, P c := by
  intro c hc
  obtain ⟨d, hd, rfl⟩ := mem_natural hc
  exact h d hd

theorem isAsciiDigit_of_mem_natural {n : ℕ} : ∀ c ∈ natural n, isAsciiDigit c = true :=
  forall_mem_natural (by decide) n

/-- The numeral of a positive number begins with no zero. -/
theorem head_natural_ne_zero {n : ℕ} (hn : 0 < n) : (natural n).head? ≠ some '0' := by
  induction n using natural.induct with
  | case1 n hlt =>
    have hdigit : ∀ d < 10, 0 < d → digit d ≠ '0' := by decide
    rw [natural_of_lt hlt]
    simpa using hdigit n hlt hn
  | case2 n hge ih =>
    rw [natural_of_ge hge, List.head?_append_of_ne_nil _ (natural_ne_nil _)]
    exact ih (by omega)

theorem natural_zero : natural 0 = ['0'] := natural_of_lt (by decide)

/-- A numeral is a zero alone or begins with no zero. -/
theorem natural_eq_zero_or_head (n : ℕ) : natural n = ['0'] ∨ (natural n).head? ≠ some '0' := by
  rcases Nat.eq_zero_or_pos n with rfl | hn
  · exact .inl natural_zero
  · exact .inr (head_natural_ne_zero hn)

theorem lt_ten_pow_length_natural (n : ℕ) : n < 10 ^ (natural n).length := by
  induction n using natural.induct with
  | case1 n hn =>
    rw [natural_of_lt hn]
    simpa using hn
  | case2 n hn ih =>
    rw [natural_of_ge hn, List.length_append, List.length_singleton, pow_succ]
    omega

theorem ten_pow_length_natural_le {n : ℕ} (hn : 0 < n) : 10 ^ (natural n).length ≤ 10 * n := by
  induction n using natural.induct with
  | case1 n hlt =>
    rw [natural_of_lt hlt, List.length_singleton]
    omega
  | case2 n hge ih =>
    rw [natural_of_ge hge, List.length_append, List.length_singleton, pow_succ]
    have hquotient := ih (by omega)
    omega

theorem length_natural_le {n d : ℕ} (hd : 0 < d) (hn : n < 10 ^ d) : (natural n).length ≤ d := by
  rcases Nat.eq_zero_or_pos n with rfl | hpos
  · rwa [natural_zero]
  · by_contra hlong
    have hmore : 10 ^ (d + 1) ≤ 10 ^ (natural n).length :=
      Nat.pow_le_pow_right (by norm_num) (by omega)
    have hpow := hmore.trans (ten_pow_length_natural_le hpos)
    rw [pow_succ] at hpow
    omega

/-! ## Rows of digits -/

theorem foldl_value (n : ℕ) (t : Text) :
    t.foldl (fun n c => n * 10 + (c.toNat - 48)) n = n * 10 ^ t.length + value t := by
  induction t generalizing n with
  | nil => simp [value]
  | cons c t ih =>
    have htail : value (c :: t) = (c.toNat - 48) * 10 ^ t.length + value t := by
      rw [value, List.foldl_cons, ih, zero_mul, zero_add]
    rw [List.foldl_cons, ih, htail, List.length_cons, pow_succ]
    ring

theorem value_append (s t : Text) : value (s ++ t) = value s * 10 ^ t.length + value t := by
  rw [value, List.foldl_append, foldl_value, ← value]

@[simp] theorem value_zeros (k : ℕ) : value (List.replicate k '0') = 0 := by
  induction k with
  | zero => rfl
  | succ k ih => rw [List.replicate_succ', value_append, ih]; rfl

/-! ## Whole numbers -/

theorem integer_natCast (n : ℕ) : integer n = natural n := if_neg (by omega)

theorem mem_integer {i : ℤ} {c : Char} (h : c ∈ integer i) : c = '-' ∨ ∃ d < 10, c = digit d := by
  rw [integer] at h
  split_ifs at h
  · rcases List.mem_cons.1 h with rfl | h
    · exact .inl rfl
    · exact .inr (mem_natural h)
  · exact .inr (mem_natural h)

theorem minus_cons_ne_natural (t : Text) (n : ℕ) : '-' :: t ≠ natural n := by
  intro h
  obtain ⟨d, hd, hminus⟩ := mem_natural (h ▸ List.mem_cons_self)
  exact digit_ne_minus (by omega) hminus.symm

theorem integer_injective : Function.Injective integer := by
  intro i j h
  rw [integer, integer] at h
  split_ifs at h with hi hj hj
  · have habs := natural_injective (List.cons.inj h).2
    omega
  · exact absurd h (minus_cons_ne_natural _ _)
  · exact absurd h.symm (minus_cons_ne_natural _ _)
  · have habs := natural_injective h
    omega

/-! ## Base sixteen -/

theorem length_hexadecimal (width n : ℕ) : (hexadecimal width n).length = width := by
  induction width generalizing n with
  | zero => rfl
  | succ width ih => rw [hexadecimal, List.length_append, ih, List.length_singleton]

theorem isDigit_of_mem_hexadecimal {width n : ℕ} {c : Char} (h : c ∈ hexadecimal width n) :
    IsDigit c := by
  induction width generalizing n with
  | zero => cases h
  | succ width ih =>
    rw [hexadecimal] at h
    rcases List.mem_append.1 h with h | h
    · exact ih h
    · exact ⟨n % 16, Nat.mod_lt _ (by decide), List.mem_singleton.1 h⟩

end InsecureLinks.Text
