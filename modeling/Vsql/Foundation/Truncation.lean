import Mathlib.Data.Rat.Floor
import Mathlib.Tactic.FieldSimp
import Mathlib.Tactic.Linarith
import Mathlib.Tactic.Positivity
import Mathlib.Tactic.Ring

/-!
# Truncation

A fraction without the digits after some place of its decimal expansion.  Division of
integers that rounds toward zero is the truncation of the quotient, and whether the
truncation stays below a power of ten only depends on the fraction.
-/

namespace Vsql.Foundation

/-- The integer part, rounded toward zero. -/
def truncInt (x : ℚ) : ℤ := if 0 ≤ x then ⌊x⌋ else ⌈x⌉

/-- The fraction with only `scale` digits after the point. -/
def truncateAt (scale : ℕ) (x : ℚ) : ℚ := (truncInt (x * 10 ^ scale) : ℚ) / 10 ^ scale

theorem truncInt_neg (x : ℚ) : truncInt (-x) = -truncInt x := by
  unfold truncInt
  obtain hx | rfl | hx := lt_trichotomy x 0
  · rw [if_pos (by linarith), if_neg (by linarith), Int.floor_neg]
  · simp
  · rw [if_neg (by linarith), if_pos hx.le, Int.ceil_neg]

theorem truncInt_natCast_div (n d : ℕ) : truncInt ((n : ℚ) / d) = ((n / d : ℕ) : ℤ) := by
  rw [truncInt, if_pos (by positivity), Rat.floor_natCast_div_natCast, Int.natCast_ediv]

/-- Division that rounds toward zero. -/
theorem truncInt_div (a b : ℤ) : truncInt ((a : ℚ) / b) = a.tdiv b := by
  have hnat : ∀ n d : ℕ, truncInt (((n : ℤ) : ℚ) / ((d : ℤ) : ℚ)) = (n : ℤ).tdiv d := by
    intro n d
    simpa using truncInt_natCast_div n d
  obtain ⟨n, rfl | rfl⟩ := a.eq_nat_or_neg <;> obtain ⟨d, rfl | rfl⟩ := b.eq_nat_or_neg
  · exact hnat n d
  · rw [Int.cast_neg, div_neg, truncInt_neg, hnat, Int.tdiv_neg]
  · rw [Int.cast_neg, neg_div, truncInt_neg, hnat, Int.neg_tdiv]
  · rw [Int.cast_neg, Int.cast_neg, neg_div_neg_eq, hnat, Int.neg_tdiv_neg]

theorem truncInt_intCast (a : ℤ) : truncInt a = a := by
  simpa using truncInt_div a 1

theorem abs_truncInt (x : ℚ) : |truncInt x| = ⌊|x|⌋ := by
  unfold truncInt
  obtain hx | hx := le_or_gt 0 x
  · rw [if_pos hx, abs_of_nonneg hx, abs_of_nonneg (Int.floor_nonneg.mpr hx)]
  · have hceil : ⌈x⌉ ≤ 0 := Int.ceil_le.mpr (by simpa using hx.le)
    rw [if_neg (not_le.mpr hx), abs_of_neg hx, abs_of_nonpos hceil, Int.floor_neg]

theorem abs_truncInt_lt {x : ℚ} {n : ℤ} : |truncInt x| < n ↔ |x| < n := by
  rw [abs_truncInt, Int.floor_lt]

theorem abs_truncateAt_lt {scale k : ℕ} {x : ℚ} :
    |truncateAt scale x| < 10 ^ k ↔ |x| < 10 ^ k := by
  have hpow : (0 : ℚ) < 10 ^ scale := by positivity
  have hbound := @abs_truncInt_lt (x * 10 ^ scale) (10 ^ k * 10 ^ scale)
  push_cast at hbound
  rw [abs_mul, abs_of_pos hpow, mul_lt_mul_iff_left₀ hpow] at hbound
  rw [truncateAt, abs_div, abs_of_pos hpow, div_lt_iff₀ hpow, ← hbound]
  exact_mod_cast Iff.rfl

theorem truncateAt_div (scale : ℕ) (a b : ℤ) :
    truncateAt scale ((a : ℚ) / b) = ((a * 10 ^ scale).tdiv b : ℚ) / 10 ^ scale := by
  have hmul : (a : ℚ) / b * 10 ^ scale = ((a * 10 ^ scale : ℤ) : ℚ) / b := by
    push_cast
    ring
  rw [truncateAt, hmul, truncInt_div]

/-- A fraction that has no more digits stays the same. -/
theorem truncateAt_intCast_div (scale : ℕ) (a : ℤ) :
    truncateAt scale ((a : ℚ) / 10 ^ scale) = (a : ℚ) / 10 ^ scale := by
  have hpow : (10 : ℚ) ^ scale ≠ 0 := by positivity
  rw [truncateAt, div_mul_cancel₀ _ hpow, truncInt_intCast]

theorem truncateAt_intCast (scale : ℕ) (a : ℤ) : truncateAt scale a = a := by
  have hpow : (10 : ℚ) ^ scale ≠ 0 := by positivity
  have h := truncateAt_intCast_div scale (a * 10 ^ scale)
  push_cast at h
  rwa [mul_div_cancel_right₀ _ hpow] at h

/-- More digits after the point cut off nothing else. -/
theorem truncateAt_eq_of_le {scale scale' : ℕ} (h : scale ≤ scale') {x : ℚ}
    (hx : truncateAt scale x = x) : truncateAt scale' x = x := by
  have hpow : (10 : ℚ) ^ scale ≠ 0 := by positivity
  have hpow' : (10 : ℚ) ^ (scale' - scale) ≠ 0 := by positivity
  have hfraction : x = ((truncInt (x * 10 ^ scale) * 10 ^ (scale' - scale) : ℤ) : ℚ) /
      10 ^ scale' := by
    have hsplit : (10 : ℚ) ^ scale' = 10 ^ scale * 10 ^ (scale' - scale) := by
      rw [← pow_add, Nat.add_sub_cancel' h]
    push_cast
    rw [hsplit, mul_div_mul_right _ _ hpow']
    exact hx.symm
  rw [hfraction, truncateAt_intCast_div]

theorem truncateAt_truncateAt (scale : ℕ) (x : ℚ) :
    truncateAt scale (truncateAt scale x) = truncateAt scale x :=
  truncateAt_intCast_div scale _

/-- The digits before the point are those of the integer part. -/
theorem abs_tdiv_lt {a b : ℤ} {n : ℤ} : |a.tdiv b| < n ↔ |(a : ℚ) / b| < n := by
  rw [← truncInt_div, abs_truncInt_lt]

end Vsql.Foundation
