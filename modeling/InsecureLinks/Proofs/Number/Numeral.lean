import Mathlib
import InsecureLinks.Number.Numeral
import InsecureLinks.Proofs.Number.Shortest
import InsecureLinks.Proofs.Text.Numeral

/-!
# Numerals that can be written

A number is written exactly if its numeral, the sign apart, has no more digits than there may be
(`write_of_isShort`, `write_of_not_isShort`).
-/

namespace InsecureLinks.Numeral

/-- Whether a number has no more digits than can be written. -/
def IsShort (i : ℤ) : Prop := (Text.natural i.natAbs).length ≤ 4300

variable {i : ℤ}

theorem length_natural_le_iff {n d : ℕ} (hd : 0 < d) : (Text.natural n).length ≤ d ↔ n < 10 ^ d := by
  refine ⟨fun h => ?_, Text.length_natural_le hd⟩
  exact (Text.lt_ten_pow_length_natural n).trans_le (Nat.pow_le_pow_right (by norm_num) h)

theorem isShort_iff : IsShort i ↔ i.natAbs < 10 ^ 4300 := length_natural_le_iff (by norm_num)

/-- A number that fits into a machine word can be written. -/
theorem isShort_of_lt (h : i.natAbs < 2 ^ 63) : IsShort i := by
  have hlength : (Text.natural i.natAbs).length ≤ 19 :=
    (length_natural_le_iff (by norm_num)).2 (h.trans (by norm_num))
  exact hlength.trans (by norm_num)

theorem isWritable_iff : isWritable i = true ↔ IsShort i := by
  rw [isWritable, decide_eq_true_eq, Decimal.tenTo_eq, Literal.maxDigits, isShort_iff]

theorem write_of_isShort (h : IsShort i) : write i = .ok (Text.integer i) :=
  if_pos (isWritable_iff.2 h)

theorem write_of_not_isShort (h : ¬IsShort i) : write i = .error .tooManyDigits :=
  if_neg (mt isWritable_iff.1 h)

theorem natAbs_ten_pow (d : ℕ) : ((10 : ℤ) ^ d).natAbs = 10 ^ d := Int.natAbs_pow 10 d

end InsecureLinks.Numeral
