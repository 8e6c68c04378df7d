import Vsql.Foundation.FloatQuotient
import Vsql.Values.NumericCast

/-!
# Arithmetic of exact numbers

The result of an operator on two NUMERICs has a type that is made of theirs, and is cut off
at its scale.  Before a division the divisor is compared with zero as an `f64`.
-/

namespace Vsql

open Foundation

/-! ## The type of a result -/

/-- The digits that an exact number can have. -/
def DataType.exactPrecision (t : DataType) : Nat :=
  match t.typ with
  | .smallint => 5
  | .integer => 10
  | .bigint => 19
  | _ => t.size

/-- The operators that `exact_arithmetic_type` tells apart. -/
inductive ExactOperator where
  | plus
  | minus
  | multiply
  deriving DecidableEq, Repr

def exactArithmeticType (t1 t2 : DataType) (op : ExactOperator) : DataType :=
  let typ : SqlType := if t1.typ = .decimal ∨ t2.typ = .decimal then .decimal else .numeric
  let p1 := t1.exactPrecision
  let p2 := t2.exactPrecision
  if op = .multiply then
    let size := if p1 = 0 ∨ p2 = 0 then 0 else p1 + p2
    { typ := typ, size := min size maxNumericPrecision, scale := t1.scale + t2.scale }
  else
    let scale := if t1.scale > t2.scale then t1.scale else t2.scale
    let d1 : Int := p1 - t1.scale
    let d2 : Int := p2 - t2.scale
    let integerDigits := if d1 > d2 then d1 else d2
    let size := if p1 = 0 ∨ p2 = 0 then 0 else (integerDigits + scale + 1).toNat
    { typ := typ, size := min size maxNumericPrecision, scale := scale }

theorem isExactDecimal_exactArithmeticType (t1 t2 : DataType) (op : ExactOperator) :
    (exactArithmeticType t1 t2 op).typ.isExactDecimal := by
  unfold exactArithmeticType
  simp only
  split_ifs <;> rfl

theorem numericPrecision_exactArithmeticType (t1 t2 : DataType) (op : ExactOperator) :
    (exactArithmeticType t1 t2 op).numericPrecision ≤ maxNumericPrecision := by
  have hsize : (exactArithmeticType t1 t2 op).size ≤ maxNumericPrecision := by
    unfold exactArithmeticType
    simp only
    split_ifs <;> exact Nat.min_le_right _ _
  unfold DataType.numericPrecision
  split_ifs
  · exact le_rfl
  · exact hsize

/-! ## The operators on fractions -/

namespace Numeric

def add (n n2 : Numeric) : Numeric :=
  let typ := exactArithmeticType n.typ n2.typ .plus
  let (a, b) := commonDenominator n n2
  normalizeDenominator ⟨typ, a.numerator + b.numerator, a.denominator⟩ typ

def subtract (n n2 : Numeric) : Numeric :=
  let typ := exactArithmeticType n.typ n2.typ .minus
  let (a, b) := commonDenominator n n2
  normalizeDenominator ⟨typ, a.numerator - b.numerator, a.denominator⟩ typ

def multiply (n n2 : Numeric) : Numeric :=
  let typ := exactArithmeticType n.typ n2.typ .multiply
  normalizeDenominator ⟨typ, n.numerator * n2.numerator, n.denominator * n2.denominator⟩ typ

def reciprocal (n : Numeric) : Numeric := ⟨n.typ, n.denominator, n.numerator⟩

def divide (n n2 : Numeric) : Except Failure Numeric :=
  if n2.isZero then .error sqlstate22012 else .ok (n.multiply n2.reciprocal)

end Numeric

/-- The digits before the point, where a zero by itself is none. -/
def checkNumericPrecision (n : Numeric) : Except Failure Numeric :=
  let digits : Int := if n.integer = 0 then 0 else Nat.log 10 n.integer.natAbs + 1
  if digits > n.typ.numericPrecision - n.typ.scale then .error sqlstate22003 else .ok n

def newNumericValueFromNumeric (n : Numeric) : Except Failure Value :=
  Value.ofContent n.typ (.numeric (n.normalizeDenominator n.typ))

def newDecimalValueFromNumeric (n : Numeric) : Except Failure Value :=
  Value.ofContent { typ := .decimal, size := n.typ.size, scale := n.typ.scale }
    (.numeric (n.normalizeDenominator n.typ))

/-! ## The operators on values -/

/-- An operator on two exact numbers, and the value that is made of its result. -/
def binaryExact (newValue : Numeric → Except Failure Value)
    (op : Numeric → Numeric → Numeric) (a b : Value) : Except Failure Value := do
  newValue (← checkNumericPrecision (op a.numericValue b.numericValue))

def binaryExactDivide (newValue : Numeric → Except Failure Value) (a b : Value) :
    Except Failure Value :=
  if b.asF64.isZero then .error sqlstate22012
  else do
    newValue (← checkNumericPrecision (← a.numericValue.divide b.numericValue))

def binaryNumericPlusNumeric := binaryExact newNumericValueFromNumeric Numeric.add

def binaryNumericMinusNumeric := binaryExact newNumericValueFromNumeric Numeric.subtract

def binaryNumericMultiplyNumeric := binaryExact newNumericValueFromNumeric Numeric.multiply

def binaryNumericDivideNumeric := binaryExactDivide newNumericValueFromNumeric

def binaryDecimalPlusDecimal := binaryExact newDecimalValueFromNumeric Numeric.add

def binaryDecimalMinusDecimal := binaryExact newDecimalValueFromNumeric Numeric.subtract

def binaryDecimalMultiplyDecimal := binaryExact newDecimalValueFromNumeric Numeric.multiply

def binaryDecimalDivideDecimal := binaryExactDivide newDecimalValueFromNumeric

inductive ArithmeticOperator where
  | exact (op : ExactOperator)
  | divide
  deriving DecidableEq, Repr

/-- `conn.binary_operators`, for two operands of the type `typ`. -/
def exactBinaryOperator (typ : SqlType) : ArithmeticOperator → Value → Value →
    Except Failure Value
  | .exact .plus =>
      if typ = .decimal then binaryDecimalPlusDecimal else binaryNumericPlusNumeric
  | .exact .minus =>
      if typ = .decimal then binaryDecimalMinusDecimal else binaryNumericMinusNumeric
  | .exact .multiply =>
      if typ = .decimal then binaryDecimalMultiplyDecimal else binaryNumericMultiplyNumeric
  | .divide =>
      if typ = .decimal then binaryDecimalDivideDecimal else binaryNumericDivideNumeric

/-! ## The results as fractions -/

def ExactOperator.apply : ExactOperator → ℚ → ℚ → ℚ
  | .plus, x, y => x + y
  | .minus, x, y => x - y
  | .multiply, x, y => x * y

namespace Numeric

variable {n n2 : Numeric}

/-- The fractions stay the same. -/
theorem commonDenominator_spec (h : n.denominator ≠ 0) (h2 : n2.denominator ≠ 0) :
    ∃ a b : Numeric, commonDenominator n n2 = (a, b) ∧ a.denominator = b.denominator ∧
      a.denominator ≠ 0 ∧ a.value = n.value ∧ b.value = n2.value := by
  have hq : (n.denominator : ℚ) ≠ 0 := by exact_mod_cast h
  have hq2 : (n2.denominator : ℚ) ≠ 0 := by exact_mod_cast h2
  by_cases heq : n.denominator = n2.denominator
  · exact ⟨n, n2, if_pos heq, heq, h, rfl, rfl⟩
  · refine ⟨_, _, if_neg heq, mul_comm _ _, mul_ne_zero h h2, ?_, ?_⟩
    · simp only [value, Int.cast_mul]
      exact mul_div_mul_right _ _ hq2
    · simp only [value, Int.cast_mul]
      exact mul_div_mul_right _ _ hq

theorem value_add (h : n.denominator ≠ 0) (h2 : n2.denominator ≠ 0) :
    (n.add n2).value =
      truncateAt (exactArithmeticType n.typ n2.typ .plus).scale (n.value + n2.value) := by
  obtain ⟨a, b, hab, hden, hne, ha, hb⟩ := commonDenominator_spec h h2
  simp only [add, hab]
  rw [value_normalizeDenominator _ (isExactDecimal_exactArithmeticType _ _ _), ← ha, ← hb]
  congr 1
  simp only [value, ← hden, Int.cast_add]
  exact add_div _ _ _

theorem value_subtract (h : n.denominator ≠ 0) (h2 : n2.denominator ≠ 0) :
    (n.subtract n2).value =
      truncateAt (exactArithmeticType n.typ n2.typ .minus).scale (n.value - n2.value) := by
  obtain ⟨a, b, hab, hden, hne, ha, hb⟩ := commonDenominator_spec h h2
  simp only [subtract, hab]
  rw [value_normalizeDenominator _ (isExactDecimal_exactArithmeticType _ _ _), ← ha, ← hb]
  congr 1
  simp only [value, ← hden, Int.cast_sub]
  exact sub_div _ _ _

theorem value_multiply (n n2 : Numeric) :
    (n.multiply n2).value =
      truncateAt (exactArithmeticType n.typ n2.typ .multiply).scale (n.value * n2.value) := by
  simp only [multiply]
  rw [value_normalizeDenominator _ (isExactDecimal_exactArithmeticType _ _ _)]
  congr 1
  simp only [value, Int.cast_mul]
  exact mul_div_mul_comm _ _ _ _

theorem value_reciprocal (n : Numeric) : n.reciprocal.value = 1 / n.value := by
  simp [value, reciprocal]

end Numeric

namespace ExactOperator

def numeric : ExactOperator → Numeric → Numeric → Numeric
  | .plus => .add
  | .minus => .subtract
  | .multiply => .multiply

theorem typ_numeric (op : ExactOperator) (n n2 : Numeric) :
    (op.numeric n n2).typ = exactArithmeticType n.typ n2.typ op := by
  cases op <;> simp only [numeric, Numeric.add, Numeric.subtract, Numeric.multiply] <;>
    exact Numeric.typ_normalizeDenominator _ _

theorem value_numeric (op : ExactOperator) {n n2 : Numeric} (h : n.denominator ≠ 0)
    (h2 : n2.denominator ≠ 0) :
    (op.numeric n n2).value =
      truncateAt (exactArithmeticType n.typ n2.typ op).scale (op.apply n.value n2.value) := by
  cases op with
  | plus => exact Numeric.value_add h h2
  | minus => exact Numeric.value_subtract h h2
  | multiply => exact Numeric.value_multiply n n2

end ExactOperator

/-! ## The range of a type -/

/-- A number that a type has digits enough for, before the point.  There is no type with a
scale that is larger than its precision. -/
def DataType.Holds (t : DataType) (x : ℚ) : Prop :=
  t.scale ≤ t.numericPrecision ∧ |x| < 10 ^ (t.numericPrecision - t.scale)

instance (t : DataType) (x : ℚ) : Decidable (t.Holds x) :=
  inferInstanceAs (Decidable (_ ∧ _))

theorem DataType.holds_truncateAt {t : DataType} {scale : Nat} {x : ℚ} :
    t.Holds (truncateAt scale x) ↔ t.Holds x := by
  rw [Holds, Holds, abs_truncateAt_lt]

theorem checkNumericPrecision_eq (n : Numeric) :
    checkNumericPrecision n =
      if n.typ.Holds n.value then .ok n else .error sqlstate22003 := by
  have hdigits : ∀ k : Nat,
      ((if n.integer = 0 then 0 else Nat.log 10 n.integer.natAbs + 1 : Int) ≤ k) ↔
        |n.value| < 10 ^ k := by
    intro k
    have hinteger : |n.value| < 10 ^ k ↔ n.integer.natAbs < 10 ^ k := by
      have hbound := @abs_tdiv_lt n.numerator n.denominator (10 ^ k)
      push_cast at hbound
      rw [Numeric.value, ← hbound, ← Int.natCast_natAbs, Numeric.integer]
      exact_mod_cast Iff.rfl
    rw [hinteger]
    split_ifs with hzero
    · simp [hzero]
    · rw [← Nat.log_lt_iff_lt_pow (by omega) (by omega)]
      omega
  unfold checkNumericPrecision
  simp only
  by_cases hle : n.typ.scale ≤ n.typ.numericPrecision
  · have hk := hdigits (n.typ.numericPrecision - n.typ.scale)
    rw [Nat.cast_sub hle] at hk
    simp only [DataType.Holds, hle, true_and, ← hk, gt_iff_lt, ← not_le, ite_not]
  · have hholds : ¬n.typ.Holds n.value := fun h => hle h.1
    rw [if_neg hholds, if_pos]
    split_ifs <;> omega

/-- The value that is made of a result. -/
def newExactValue (typ : SqlType) : Numeric → Except Failure Value :=
  if typ = .decimal then newDecimalValueFromNumeric else newNumericValueFromNumeric

theorem exactBinaryOperator_exact (typ : SqlType) (op : ExactOperator) :
    exactBinaryOperator typ (.exact op) = binaryExact (newExactValue typ) op.numeric := by
  unfold newExactValue
  cases op <;> simp only [exactBinaryOperator] <;> split_ifs <;> rfl

theorem exactBinaryOperator_divide (typ : SqlType) :
    exactBinaryOperator typ .divide = binaryExactDivide (newExactValue typ) := by
  unfold newExactValue
  simp only [exactBinaryOperator]
  split_ifs <;> rfl

theorem newExactValue_ok (typ : SqlType) {n : Numeric} (hn : n.typ.typ.isExactDecimal)
    (hprecision : n.typ.numericPrecision ≤ maxNumericPrecision) (hholds : n.typ.Holds n.value) :
    ∃ w, newExactValue typ n = .ok w ∧ w.typ.scale = n.typ.scale ∧
      w.exactValue = truncateAt n.typ.scale n.value := by
  obtain ⟨hscale, hsmall⟩ := hholds
  have hlarge : (10 : ℚ) ^ (n.typ.numericPrecision - n.typ.scale) ≤ 10 ^ maxNumericPrecision :=
    pow_le_pow_right₀ (by norm_num) (by omega)
  unfold newExactValue
  split_ifs
  · obtain ⟨w, hw, htyp, hvalue⟩ :=
      @ofContent_normalized { typ := .decimal, size := n.typ.size, scale := n.typ.scale } n rfl hn
        rfl (by simp only; omega) (lt_of_lt_of_le hsmall hlarge)
    exact ⟨w, hw, by rw [htyp], hvalue⟩
  · obtain ⟨w, hw, htyp, hvalue⟩ :=
      @ofContent_normalized n.typ n hn hn rfl (by omega) (lt_of_lt_of_le hsmall hlarge)
    exact ⟨w, hw, by rw [htyp], hvalue⟩

/-! ## Which operations are exact -/

namespace ArithmeticOperator

/-- The type of the result, for a division that of the product with the reciprocal. -/
def resultType (t1 t2 : DataType) : ArithmeticOperator → DataType
  | .exact op => exactArithmeticType t1 t2 op
  | .divide => exactArithmeticType t1 t2 .multiply

def apply : ArithmeticOperator → ℚ → ℚ → ℚ
  | .exact op, x, y => op.apply x y
  | .divide, x, y => x / y

end ArithmeticOperator

/-- The operator yields the exact result, cut off at the scale of its type, unless the
divisor is zero or the type cannot hold the result.  This only depends on the fractions that
the operands are and on their types. -/
def ComputesExactly (typ : SqlType) (op : ArithmeticOperator) (a b : Value) : Prop :=
  let t := op.resultType a.numericValue.typ b.numericValue.typ
  let x := op.apply a.exactValue b.exactValue
  if op = .divide ∧ b.exactValue = 0 then
    exactBinaryOperator typ op a b = .error sqlstate22012
  else if t.Holds x then
    ∃ w, exactBinaryOperator typ op a b = .ok w ∧ w.typ.scale = t.scale ∧
      w.exactValue = truncateAt t.scale x
  else exactBinaryOperator typ op a b = .error sqlstate22003

/-- A result that is checked against its type and made a value. -/
theorem binaryExact_spec (typ : SqlType) {n : Numeric} {t : DataType} {x : ℚ}
    (hn : n.typ = t) (ht : t.typ.isExactDecimal)
    (hprecision : t.numericPrecision ≤ maxNumericPrecision)
    (hvalue : n.value = truncateAt t.scale x) :
    if t.Holds x then
      ∃ w, (checkNumericPrecision n >>= newExactValue typ) = .ok w ∧ w.typ.scale = t.scale ∧
        w.exactValue = truncateAt t.scale x
    else (checkNumericPrecision n >>= newExactValue typ) = .error sqlstate22003 := by
  have hholds : n.typ.Holds n.value ↔ t.Holds x := by
    rw [hn, hvalue, DataType.holds_truncateAt]
  rw [checkNumericPrecision_eq]
  split_ifs with h h' h'
  · obtain ⟨w, hw, hscale, hw'⟩ := newExactValue_ok typ (hn ▸ ht) (hn ▸ hprecision) h'
    refine ⟨w, hw, by rw [hscale, hn], ?_⟩
    rw [hw', hn, hvalue, truncateAt_truncateAt]
  · exact absurd (hholds.mpr h) h'
  · exact absurd (hholds.mp h') h
  · rfl

theorem binary64_wide : binary64.Wide := ⟨by decide, by decide⟩

theorem isZero_asF64 {v : Value} (htyp : v.typ.typ.isExactDecimal)
    (hden : v.numericValue.denominator ≠ 0) :
    v.asF64.isZero = true ↔ v.numericValue.numerator = 0 ∨
      v.numericValue.numerator.natAbs < binary64.overflow ∧
        binary64.overflow ≤ v.numericValue.denominator.natAbs := by
  rw [Value.asF64, if_pos htyp]
  exact BinaryFloat.isZero_div_ofInt binary64_wide hden

section

variable {typ : SqlType} {a b : Value}

theorem computesExactly_exact (op : ExactOperator) (ha : a.isNull = false)
    (hb : b.isNull = false) (hat : a.typ.typ.isExactDecimal) (hbt : b.typ.typ.isExactDecimal) :
    ComputesExactly typ (.exact op) a b := by
  have hden := (Value.numericValue_fits ha hat).denominator.1
  have hden2 := (Value.numericValue_fits hb hbt).denominator.1
  have hspec := binaryExact_spec typ (op.typ_numeric a.numericValue b.numericValue)
    (isExactDecimal_exactArithmeticType _ _ _) (numericPrecision_exactArithmeticType _ _ _)
    (op.value_numeric hden.ne' hden2.ne')
  unfold ComputesExactly
  rw [exactBinaryOperator_exact, if_neg (by simp), Value.exactValue_of_decimal hat,
    Value.exactValue_of_decimal hbt]
  exact hspec

/-- A divisor that the `f64` is zero for is taken for zero. -/
theorem computesExactly_divide (ha : a.isNull = false) (hb : b.isNull = false)
    (hat : a.typ.typ.isExactDecimal) (hbt : b.typ.typ.isExactDecimal) :
    ComputesExactly typ .divide a b ↔
      (b.asF64.isZero = true → b.numericValue.numerator = 0) := by
  have hden := (Value.numericValue_fits ha hat).denominator.1
  have hden2 := (Value.numericValue_fits hb hbt).denominator.1
  have hzero := Numeric.value_eq_zero (n := b.numericValue) hden2.ne'
  have hf64 := isZero_asF64 hbt hden2.ne'
  unfold ComputesExactly
  rw [exactBinaryOperator_divide, Value.exactValue_of_decimal hat,
    Value.exactValue_of_decimal hbt]
  simp only [true_and, hzero, binaryExactDivide]
  by_cases hnum : b.numericValue.numerator = 0
  · simp [hnum, hf64]
  · rw [if_neg hnum]
    by_cases htaken : b.asF64.isZero = true
    · simp [htaken, hnum, sqlstate22012, sqlstate22003]
    · have hdivide : a.numericValue.divide b.numericValue =
          .ok (a.numericValue.multiply b.numericValue.reciprocal) := by
        simp [Numeric.divide, Numeric.isZero, hnum]
      have hvalue := Numeric.value_multiply a.numericValue b.numericValue.reciprocal
      rw [Numeric.value_reciprocal, mul_one_div] at hvalue
      have hspec := binaryExact_spec typ (n := a.numericValue.multiply b.numericValue.reciprocal)
        (ExactOperator.typ_numeric .multiply a.numericValue b.numericValue.reciprocal)
        (isExactDecimal_exactArithmeticType _ _ _) (numericPrecision_exactArithmeticType _ _ _)
        hvalue
      rw [if_neg htaken, hdivide]
      exact iff_of_true hspec fun h => absurd h htaken

end

/-- Unless the divisor is a fraction of an integer that an `f64` can hold and of one that it
cannot. -/
theorem computesExactly_iff {typ : SqlType} (op : ArithmeticOperator) {a b : Value}
    (ha : a.isNull = false) (hb : b.isNull = false) (hat : a.typ.typ.isExactDecimal)
    (hbt : b.typ.typ.isExactDecimal) :
    ComputesExactly typ op a b ↔
      (op = .divide → b.numericValue.numerator.natAbs < binary64.overflow →
        binary64.overflow ≤ b.numericValue.denominator.natAbs →
          b.numericValue.numerator = 0) := by
  cases op with
  | exact op => simp [computesExactly_exact op ha hb hat hbt]
  | divide =>
      have hden := (Value.numericValue_fits hb hbt).denominator.1
      rw [computesExactly_divide ha hb hat hbt, isZero_asF64 hbt hden.ne']
      constructor
      · exact fun h _ hsmall hlarge => h (.inr ⟨hsmall, hlarge⟩)
      · rintro h (hzero | ⟨hsmall, hlarge⟩)
        · exact hzero
        · exact h rfl hsmall hlarge

/-- `1.50` -/
def price : Value := numericValueOf 150 3 2 (by decide) (by decide) (by decide)

theorem rate_scale_le : 1 ≤ 2 := by decide

theorem rate_size_le : 2 ≤ maxNumericPrecision := by decide

/-- `0.4` -/
def rate : Value := numericValueOf 4 2 1 rate_scale_le rate_size_le (by decide)

theorem computesExactly_iff_price : ComputesExactly .numeric .divide price rate := by
  refine (computesExactly_iff .divide rfl rfl rfl rfl).mpr fun _ _ hlarge => ?_
  exact absurd hlarge (by decide +kernel)

/-- `1` after 309 places. -/
def tiny : Value := numericValueOf 1 310 309 (by decide) (by decide) (by decide +kernel)

/-- It is not zero, and dividing it by itself is one. -/
theorem not_computesExactly_tiny : ¬ComputesExactly .numeric .divide tiny tiny := by
  rw [computesExactly_divide rfl rfl rfl rfl, isZero_asF64 rfl (by decide +kernel)]
  intro h
  exact absurd (h (.inr (by decide +kernel))) (by decide +kernel)

end Vsql
