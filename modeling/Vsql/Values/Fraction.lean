import Vsql.Foundation.Truncation
import Vsql.Values.KeyOrder

/-!
# The fraction that a number is

An exact number is a fraction.  Making its denominator that of a type cuts off the digits
that the type does not have.
-/

namespace Vsql

open Foundation

theorem SqlType.isExactDecimal_iff {typ : SqlType} :
    typ.isExactDecimal = true ↔ typ = .numeric ∨ typ = .decimal := by
  cases typ <;> simp [SqlType.isExactDecimal]

namespace Numeric

def value (n : Numeric) : ℚ := (n.numerator : ℚ) / n.denominator

theorem value_ofInt (x : Int) : (ofInt x).value = x := by
  simp [value, ofInt]

theorem value_eq_zero {n : Numeric} (h : n.denominator ≠ 0) :
    n.value = 0 ↔ n.numerator = 0 := by
  simp [value, h]

theorem value_scaleNumerator (n : Numeric) (scale : Nat) :
    (n.scaleNumerator (10 ^ scale)).value = truncateAt scale n.value := by
  rw [value, value, truncateAt_div]
  simp [scaleNumerator]

/-- The digits that the type does not have are cut off. -/
theorem value_normalizeDenominator (n : Numeric) {t : DataType} (ht : t.typ.isExactDecimal) :
    (n.normalizeDenominator t).value = truncateAt t.scale n.value := by
  have hdecimal := SqlType.isExactDecimal_iff.mp ht
  by_cases hden : n.denominator = 10 ^ t.scale
  · have hcast : (n.denominator : ℚ) = 10 ^ t.scale := by exact_mod_cast hden
    simp only [normalizeDenominator, hden, ne_eq, not_true_eq_false, and_false, if_false]
    rw [value, hcast, truncateAt_intCast_div]
  · rw [normalizeDenominator, if_pos ⟨hdecimal, hden⟩, value_scaleNumerator]

theorem denominator_normalizeDenominator (n : Numeric) {t : DataType}
    (ht : t.typ.isExactDecimal) : (n.normalizeDenominator t).denominator = 10 ^ t.scale := by
  have hdecimal := SqlType.isExactDecimal_iff.mp ht
  by_cases hden : n.denominator = 10 ^ t.scale
  · simp [normalizeDenominator, hden]
  · rw [normalizeDenominator, if_pos ⟨hdecimal, hden⟩, scaleNumerator]

theorem typ_normalizeDenominator (n : Numeric) (t : DataType) :
    (n.normalizeDenominator t).typ = n.typ := by
  simp only [normalizeDenominator]
  split <;> rfl

/-- A number with a power of ten below is small when its fraction is. -/
theorem natAbs_numerator_lt {n : Numeric} (hden : 0 < n.denominator) {k : Nat} :
    (n.numerator.natAbs : Int) < 10 ^ k * n.denominator ↔ |n.value| < 10 ^ k := by
  have hden' : (0 : ℚ) < n.denominator := by exact_mod_cast hden
  rw [value, abs_div, abs_of_pos hden', div_lt_iff₀ hden', Int.natCast_natAbs]
  exact_mod_cast Iff.rfl

end Numeric

/-! ## Values -/

namespace Value

def exactValue (v : Value) : ℚ := v.asExactNumeric.value

/-- An exact number. -/
structure IsExact (v : Value) : Prop where
  notNull : v.isNull = false
  typ : v.typ.typ.isInteger ∨ v.typ.typ.isExactDecimal

theorem IsExact.denominator_pos {v : Value} (h : v.IsExact) :
    0 < v.asExactNumeric.denominator := by
  unfold asExactNumeric
  split
  · next hdecimal => exact (numericValue_fits h.notNull hdecimal).denominator.1
  · simp [Numeric.ofInt]

theorem exactValue_of_decimal {v : Value} (h : v.typ.typ.isExactDecimal) :
    v.exactValue = v.numericValue.value := by
  rw [exactValue, asExactNumeric, if_pos h]

end Value

end Vsql
