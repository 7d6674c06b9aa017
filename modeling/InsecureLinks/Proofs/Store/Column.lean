import Mathlib
import InsecureLinks.Proofs.Number.Rounding
import InsecureLinks.Store.Column

/-!
# What a column gives back

Whole numbers and texts that are put into a column of their kind are got back as they are.  So are the
real numbers, but for the sign of zero (`asReal_real`): one that is whole is stored as a whole number,
which rounds to it (`ofInt_of_sameNumber`).
-/

namespace InsecureLinks

namespace Binary64

/-- The number, with zero having no sign. -/
def withoutZeroSign (x : Binary64) : Binary64 := if x.isZero then zero else x

/-- The number in units of the least exponent, if it is finite. -/
def count : Binary64 → ℤ
  | finite n m e => units n m e
  | _ => 0

section Finite

variable {x y : Binary64}

theorem count_withoutZeroSign (x : Binary64) : x.withoutZeroSign.count = x.count := by
  rcases x with ⟨n, m, e⟩ | n | _
  · by_cases hm : m = 0
    · subst hm
      cases n
      · simp [withoutZeroSign, isZero, zero, count, units]
      · simp [withoutZeroSign, isZero, zero, count, units]
    · simp [withoutZeroSign, isZero, hm]
  · rfl
  · rfl

theorem isFiniteDouble_withoutZeroSign (h : x.IsFiniteDouble) :
    x.withoutZeroSign.IsFiniteDouble := by
  rw [withoutZeroSign]
  split_ifs
  · refine ⟨by norm_num, le_rfl, by decide, .inr rfl⟩
  · exact h

theorem lt_iff (hx : x.IsFiniteDouble) (hy : y.IsFiniteDouble) :
    x.lt y = decide (x.count < y.count) := by
  rcases x with ⟨n, m, e⟩ | n | _
  · rcases y with ⟨n', m', e'⟩ | n' | _
    · rfl
    · exact hy.elim
    · exact hy.elim
  · exact hx.elim
  · exact hx.elim

theorem same_iff (hx : x.IsFiniteDouble) (hy : y.IsFiniteDouble) :
    x.same y = decide (x.count = y.count) := by
  rcases x with ⟨n, m, e⟩ | n | _
  · rcases y with ⟨n', m', e'⟩ | n' | _
    · rfl
    · exact hy.elim
    · exact hy.elim
  · exact hx.elim
  · exact hx.elim

theorem same_withoutZeroSign (hx : x.IsFiniteDouble) : x.withoutZeroSign.same x = true := by
  rw [same_iff (isFiniteDouble_withoutZeroSign hx) hx, count_withoutZeroSign, decide_eq_true rfl]

end Finite

/-- A whole number that is a double precision number rounds to it. -/
theorem ofInt_of_sameNumber {n : Bool} {m : ℕ} {e i : ℤ} (hx : (finite n m e).IsDouble) (hm : 0 < m)
    (hi : Value.sameNumber i (finite n m e) = true) : ofInt i = finite n m e := by
  have hden := quotient_snd_pos m e
  have hquotient := quotient_div m e
  rw [Value.sameNumber, decide_eq_true_eq] at hi
  generalize (quotient m e).1 = num, (quotient m e).2 = den at hden hquotient hi
  have hnum : 0 < num := by
    have hpositive : (0 : ℚ) < m * 2 ^ e := by positivity
    rw [← hquotient, div_pos_iff_of_pos_right (by exact_mod_cast hden)] at hpositive
    exact_mod_cast hpositive
  have habs : i.natAbs * den = num := by
    have hboth := congrArg Int.natAbs hi
    rw [Int.natAbs_mul] at hboth
    split_ifs at hboth
    · simpa using hboth
    · simpa using hboth
  have hsign : decide (i < 0) = n := by
    have hpos : (0 : ℤ) < den := by exact_mod_cast hden
    cases n
    · have hnonneg : 0 ≤ i := by
        refine nonneg_of_mul_nonneg_left (?_ : 0 ≤ i * (den : ℤ)) hpos
        rw [hi, if_neg Bool.false_ne_true]
        exact Int.natCast_nonneg num
      simpa using hnonneg
    · have hneg : i < 0 := by
        refine neg_of_mul_neg_left (?_ : i * (den : ℤ) < 0) hpos.le
        rw [hi, if_pos rfl]
        omega
      simpa using hneg
  rw [ofInt, hsign]
  refine ofQuotient_of_eq hx one_pos ?_
  rw [← hquotient, ← habs]
  push_cast
  field_simp

end Binary64

namespace Store.Cell

open Binary64 (finite zero)

/-- A real number that is put into a column for real numbers is got back as it is, but for the sign of
zero. -/
theorem asReal_real {x : Binary64} (hx : x.IsFiniteDouble) :
    (real x).asReal = real x.withoutZeroSign := by
  rcases x with ⟨n, m, e⟩ | n | _
  · obtain ⟨i, hi⟩ : ∃ i, (finite n m e).truncate? = some i := ⟨_, rfl⟩
    rcases Nat.eq_zero_or_pos m with rfl | hm
    · have hnum : (Binary64.quotient 0 e).1 = 0 := by
        rw [Binary64.quotient]
        split_ifs
        · exact Nat.zero_shiftLeft _
        · rfl
      obtain rfl : i = 0 := by
        simpa [Binary64.truncate?, hnum] using hi.symm
      have hzero : Value.sameNumber 0 (finite n 0 e) = true := by
        simp [Value.sameNumber, hnum]
      rw [asReal, asInteger, ofReal, hi]
      simp [hzero, leastInteger, greatestInteger, Binary64.withoutZeroSign, Binary64.isZero]
      rfl
    · have hplain : (finite n m e).withoutZeroSign = finite n m e := by
        simp [Binary64.withoutZeroSign, Binary64.isZero, hm.ne']
      rw [asReal, asInteger, ofReal, hi, hplain]
      by_cases hwhole : Value.sameNumber i (finite n m e) = true ∧ leastInteger < i ∧
          i < greatestInteger
      · simp only [hwhole, and_self, if_true]
        rw [Binary64.ofInt_of_sameNumber hx hm hwhole.1]
      · simp only [hwhole, if_false]
  · exact hx.elim
  · exact hx.elim

end Store.Cell

end InsecureLinks
