import Vsql.Values.Fraction
import Vsql.Values.StoreAssignment

/-!
# Casting to NUMERIC

A NUMERIC or DECIMAL with a precision and a scale holds the numbers that have no more
digits than that on each side of the point.  Casting an exact number cuts off the digits
after the point, and fails if there are too many before it.
-/

namespace Vsql

open Foundation

/-! ## The types that can be declared -/

/-- `parse_type_with_precision` -/
def parseTypeWithPrecision (name : SqlType) (precision scale : Nat) : Except Failure DataType :=
  if precision < 1 then
    .error (sqlstate42601 s!"{name.str} precision must be greater than 0")
  else if precision < scale then
    .error (sqlstate42601 (s!"{name.str} scale ({scale}) must not be greater than " ++
      s!"precision ({precision})"))
  else .ok { typ := name, size := precision, scale := scale }

def maxCharacterLength : Nat := 10485760

def maxFloatPrecision : Nat := 53

/-- A declared type must not be larger than the limit. -/
def checkDataType (t : DataType) : Except Failure Unit :=
  match t.typ with
  | .character | .varchar =>
      if maxCharacterLength < t.size then
        .error (sqlstate42601
          s!"{t.typ.str} length must not be greater than {maxCharacterLength}")
      else .ok ()
  | .numeric | .decimal =>
      if maxNumericPrecision < t.size then
        .error (sqlstate42601
          s!"{t.typ.str} precision must not be greater than {maxNumericPrecision}")
      else .ok ()
  | .doublePrecision =>
      if maxFloatPrecision < t.size then
        .error (sqlstate42601
          s!"FLOAT precision must not be greater than {maxFloatPrecision}")
      else .ok ()
  | _ => .ok ()

/-- A type that was declared with a precision and a scale, for a column that may be NOT
NULL. -/
structure DeclaredNumeric (t : DataType) (precision scale : Nat) : Prop where
  typ : t.typ.isExactDecimal
  parsed : parseTypeWithPrecision t.typ precision scale = .ok { t with notNull := false }
  checked : checkDataType t = .ok ()

theorem DeclaredNumeric.limits {t : DataType} {precision scale : Nat}
    (h : DeclaredNumeric t precision scale) :
    t.size = precision ∧ t.scale = scale ∧ 1 ≤ precision ∧ scale ≤ precision ∧
      precision ≤ maxNumericPrecision := by
  have hparsed := h.parsed
  unfold parseTypeWithPrecision at hparsed
  split at hparsed
  · cases hparsed
  · split at hparsed
    · cases hparsed
    · next hpos hscale =>
        have hfields := Except.ok.inj hparsed
        simp only [DataType.mk.injEq] at hfields
        have hchecked := h.checked
        have hsize : ¬maxNumericPrecision < t.size := by
          intro hlt
          obtain htyp | htyp := SqlType.isExactDecimal_iff.mp h.typ <;>
            simp [checkDataType, htyp, hlt] at hchecked
        exact ⟨hfields.2.1.symm, hfields.2.2.1.symm, by omega, by omega, by omega⟩

/-! ## The digits before the point -/

/-- A number that is smaller than 1 is printed with one digit before the point. -/
theorem one_le_integerDigits (x : Numeric) : 1 ≤ integerDigits x := by
  unfold integerDigits
  simp only
  split <;> omega

theorem integerDigits_le_iff {x : Numeric} (hden : 0 < x.denominator) {k : Nat} (hk : 1 ≤ k) :
    integerDigits x ≤ k ↔ |x.value| < 10 ^ k := by
  obtain ⟨d, hd⟩ : ∃ d : Nat, x.denominator = d := ⟨x.denominator.toNat, by omega⟩
  have hdpos : 0 < d := by omega
  have hdigits : integerDigits x ≤ k ↔
      x.numerator.natAbs * 10 ^ x.typ.scale / d < 10 ^ (x.typ.scale + k) := by
    have hlog : ∀ n, Nat.log 10 n < x.typ.scale + k ↔ n < 10 ^ (x.typ.scale + k) := fun n =>
      ⟨Nat.lt_pow_of_log_lt (by omega), Nat.log_lt_of_lt_pow' (by omega)⟩
    rw [← hlog]
    unfold integerDigits
    simp only [hd, Int.toNat_natCast, OrderedCode.length_decimal]
    split <;> omega
  have hpow : 0 < 10 ^ x.typ.scale := by positivity
  rw [hdigits, Nat.div_lt_iff_lt_mul hdpos, Nat.pow_add, Nat.mul_assoc,
    Nat.mul_comm (10 ^ x.typ.scale) (10 ^ k * d), Nat.mul_lt_mul_right hpow,
    ← Numeric.natAbs_numerator_lt hden, hd]
  exact_mod_cast Iff.rfl

/-! ## The cast -/

theorem cast_numeric_eq {tz : TimeZone} {v : Value} {t : DataType} (hv : v.IsExact)
    (ht : t.typ.isExactDecimal) :
    cast tz v t = if v.typ = t then .ok v else castNumeric v t := by
  have hnumber : v.typ.typ.isNumber := by
    obtain h | h := hv.typ <;> revert h <;> cases v.typ.typ <;>
      simp [SqlType.isInteger, SqlType.isExactDecimal, SqlType.isNumber]
  have ht' : t.typ.isString = false ∧ t.typ.isNumber = true := by
    revert ht
    cases t.typ <;> simp [SqlType.isExactDecimal, SqlType.isString, SqlType.isNumber]
  unfold cast
  simp [hv.notNull, ht'.1, ht'.2, hnumber]

theorem asNumeric_of_isExact {v : Value} (hv : v.IsExact) : v.asNumeric = v.asExactNumeric := by
  have happroximate : v.typ.typ.isApproximate = false := by
    obtain h | h := hv.typ <;> revert h <;> cases v.typ.typ <;>
      simp [SqlType.isInteger, SqlType.isExactDecimal, SqlType.isApproximate]
  simp [Value.asNumeric, happroximate]

theorem castNumeric_error {v : Value} {t : DataType} (hv : v.IsExact)
    (ht : t.typ.isExactDecimal)
    (h : t.numericPrecision - t.scale < integerDigits v.asExactNumeric) :
    castNumeric v t = .error sqlstate22003 := by
  unfold castNumeric
  obtain htyp | htyp := SqlType.isExactDecimal_iff.mp ht <;>
    simp [htyp, asNumeric_of_isExact hv, h]

/-- A type can hold a number that was cut off at its scale. -/
theorem ofContent_normalized {t : DataType} {n : Numeric} (ht : t.typ.isExactDecimal)
    (hn : n.typ.typ.isExactDecimal) (hscale : n.typ.scale = t.scale)
    (hlimit : t.scale ≤ maxNumericPrecision) (hsmall : |n.value| < 10 ^ maxNumericPrecision) :
    ∃ w, Value.ofContent t (.numeric (n.normalizeDenominator n.typ)) = .ok w ∧ w.typ = t ∧
      w.exactValue = truncateAt t.scale n.value := by
  have hden : (n.normalizeDenominator n.typ).denominator = 10 ^ t.scale := by
    rw [Numeric.denominator_normalizeDenominator n hn, hscale]
  have hvalue : (n.normalizeDenominator n.typ).value = truncateAt t.scale n.value := by
    rw [Numeric.value_normalizeDenominator n hn, hscale]
  have hpow : (0 : Int) < 10 ^ t.scale := by positivity
  have hfits : Content.Fits t (.numeric (n.normalizeDenominator n.typ)) := by
    refine ⟨ht, ⟨by rw [Numeric.typ_normalizeDenominator, hscale], hlimit⟩, ?_, ?_⟩
    · rw [hden]
      exact ⟨hpow, pow_lt_pow_right₀ (by norm_num) (Nat.lt_succ_self t.scale)⟩
    · rw [Numeric.natAbs_numerator_lt (by rw [hden]; exact hpow), hvalue, abs_truncateAt_lt]
      exact hsmall
  refine ⟨⟨t, some (.numeric (n.normalizeDenominator n.typ)), by simpa using hfits⟩, ?_, rfl, ?_⟩
  · rw [Value.ofContent, dif_pos hfits]
  · rw [Value.exactValue_of_decimal ht, ← hvalue]
    rfl

/-- The number is cut off at the scale. -/
theorem castNumeric_ok_of_small {v : Value} {t : DataType} (hv : v.IsExact)
    (ht : t.typ.isExactDecimal) (hscale : t.scale ≤ maxNumericPrecision)
    (hsmall : |v.exactValue| < 10 ^ maxNumericPrecision)
    (h : integerDigits v.asExactNumeric ≤ t.numericPrecision - t.scale) :
    ∃ w, castNumeric v t = .ok w ∧ w.typ.typ = t.typ ∧
      w.exactValue = truncateAt t.scale v.exactValue := by
  obtain ⟨w, hw, htyp, hvalue⟩ :=
    @ofContent_normalized { t with notNull := t.notNull && t.typ == .numeric }
      ⟨t, v.asExactNumeric.numerator, v.asExactNumeric.denominator⟩ ht ht rfl hscale hsmall
  refine ⟨w, ?_, by rw [htyp], hvalue⟩
  unfold castNumeric
  obtain hkind | hkind := SqlType.isExactDecimal_iff.mp ht <;>
  · simp only [hkind, asNumeric_of_isExact hv, not_lt.mpr h, if_false]
    simpa only [hkind] using hw

/-- The digits of the type are enough for the number. -/
theorem castNumeric_ok {v : Value} {t : DataType} (hv : v.IsExact)
    (ht : t.typ.isExactDecimal) (hscale : t.scale ≤ maxNumericPrecision)
    (hprecision : t.numericPrecision ≤ maxNumericPrecision)
    (h : integerDigits v.asExactNumeric ≤ t.numericPrecision - t.scale) :
    ∃ w, castNumeric v t = .ok w ∧ w.typ.typ = t.typ ∧
      w.exactValue = truncateAt t.scale v.exactValue := by
  have hdigits := one_le_integerDigits v.asExactNumeric
  have hsmall : |v.exactValue| < 10 ^ (t.numericPrecision - t.scale) :=
    (integerDigits_le_iff hv.denominator_pos (by omega)).mp h
  have hlarge : (10 : ℚ) ^ (t.numericPrecision - t.scale) ≤ 10 ^ maxNumericPrecision :=
    pow_le_pow_right₀ (by norm_num) (by omega)
  exact castNumeric_ok_of_small hv ht hscale (lt_of_lt_of_le hsmall hlarge) h

/-! ## Which casts keep the number -/

/-- The cast of an exact number yields the number that is cut off at the scale, if its
digits before the point fit. -/
def CastsToFit (tz : TimeZone) (v : Value) (t : DataType) : Prop :=
  if |truncateAt t.scale v.exactValue| < 10 ^ (t.size - t.scale) then
    ∃ w, cast tz v t = .ok w ∧ w.typ.typ = t.typ ∧
      w.exactValue = truncateAt t.scale v.exactValue
  else cast tz v t = .error sqlstate22003

/-- A type with as many digits after the point as it has has none before it, but the zero
there is counted. -/
theorem cast_error_of_noDigits {tz : TimeZone} {v : Value} {t : DataType} {precision : Nat}
    (ht : DeclaredNumeric t precision precision) (hv : v.IsExact) (htyp : v.typ ≠ t) :
    cast tz v t = .error sqlstate22003 := by
  obtain ⟨hsize, hscale, hpos, -, -⟩ := ht.limits
  have hprecision : t.numericPrecision = precision := by
    rw [DataType.numericPrecision, if_neg (by omega), hsize]
  have hdigits := one_le_integerDigits v.asExactNumeric
  rw [cast_numeric_eq hv ht.typ, if_neg htyp]
  exact castNumeric_error hv ht.typ (by omega)

/-- The type has a digit before the point, or the number needs one. -/
theorem castsToFit_iff {tz : TimeZone} {v : Value} {t : DataType} {precision scale : Nat}
    (ht : DeclaredNumeric t precision scale) (hv : v.IsExact) :
    CastsToFit tz v t ↔
      if v.typ = t then
        |v.exactValue| < 10 ^ (precision - scale) ∧ truncateAt scale v.exactValue = v.exactValue
      else scale < precision ∨ 1 ≤ |v.exactValue| := by
  obtain ⟨hsize, hscale, hpos, hle, hmax⟩ := ht.limits
  have hprecision : t.numericPrecision = precision := by
    rw [DataType.numericPrecision, if_neg (by omega), hsize]
  have hden := hv.denominator_pos
  have hdigits := one_le_integerDigits v.asExactNumeric
  rw [CastsToFit, cast_numeric_eq hv ht.typ, hsize, hscale]
  simp only [abs_truncateAt_lt]
  split_ifs with hfit htyp htyp
  · constructor
    · rintro ⟨w, hw, -, hvalue⟩
      rw [← Except.ok.inj hw] at hvalue
      exact ⟨hfit, hvalue.symm⟩
    · rintro ⟨-, hvalue⟩
      exact ⟨v, rfl, by rw [htyp], hvalue.symm⟩
  · obtain rfl | hlt := Nat.eq_or_lt_of_le hle
    · have hbelow : ¬(scale < scale ∨ 1 ≤ |v.exactValue|) := by
        rw [Nat.sub_self, pow_zero] at hfit
        simpa using hfit
      have herror := castNumeric_error hv ht.typ (by omega)
      rw [herror]
      exact ⟨by simp, fun habsurd => absurd habsurd hbelow⟩
    · have hint : integerDigits v.asExactNumeric ≤ precision - scale :=
        (integerDigits_le_iff hden (by omega)).mpr hfit
      have hok := castNumeric_ok hv ht.typ (by omega) (by omega) (by omega)
      rw [hscale] at hok
      exact ⟨fun _ => .inl hlt, fun _ => hok⟩
  · simp [hfit]
  · have hlarge : precision - scale < integerDigits v.asExactNumeric := by
      obtain heq | hlt := Nat.eq_or_lt_of_le hle
      · omega
      · rw [← not_le, integerDigits_le_iff hden (by omega)]
        exact hfit
    have hone : 1 ≤ |v.exactValue| :=
      (one_le_pow₀ (by norm_num)).trans (not_lt.mp hfit)
    exact ⟨fun _ => .inr hone, fun _ => castNumeric_error hv ht.typ (by omega)⟩

/-- A value with the digits of `numerator`, of which `scale` are after the point. -/
def numericValueOf (numerator : Int) (size scale : Nat) (hscale : scale ≤ size)
    (hsize : size ≤ maxNumericPrecision) (h : numerator.natAbs < 10 ^ size) : Value where
  typ := { typ := .numeric, size := size, scale := scale }
  v := some (.numeric ⟨{ typ := .numeric, size := size, scale := scale }, numerator,
    10 ^ scale⟩)
  fits := by
    have hpow : (0 : Int) < 10 ^ scale := by positivity
    have hdigits : (numerator.natAbs : Int) < 10 ^ maxNumericPrecision :=
      lt_of_lt_of_le (b := (10 : Int) ^ size) (by exact_mod_cast h)
        (pow_le_pow_right₀ (by norm_num) hsize)
    simp only [Option.mem_def, Option.some.injEq, forall_eq']
    refine ⟨rfl, ⟨rfl, hscale.trans hsize⟩, ⟨hpow, ?_⟩, ?_⟩
    · exact pow_lt_pow_right₀ (by norm_num) (Nat.lt_succ_self scale)
    · exact lt_of_lt_of_le hdigits (le_mul_of_one_le_right (by positivity) hpow)

/-- `1234.567` -/
def amount : Value := numericValueOf 1234567 7 3 (by decide) (by decide) (by decide)

theorem castsToFit_iff_amount :
    CastsToFit noTimeZone amount { typ := .numeric, size := 6, scale := 2 } := by
  refine (@castsToFit_iff _ amount _ 6 2 ⟨rfl, rfl, rfl⟩ ⟨rfl, .inr rfl⟩).mpr ?_
  rw [if_neg (by decide)]
  exact .inl (by decide)

/-- `0.5` -/
def half : Value := numericValueOf 5 2 1 (by decide) (by decide) (by decide)

/-- `CAST(0.5 AS NUMERIC(1, 1))` -/
theorem not_castsToFit_half :
    ¬CastsToFit noTimeZone half { typ := .numeric, size := 1, scale := 1 } := by
  have herror := @cast_error_of_noDigits noTimeZone half
    { typ := .numeric, size := 1, scale := 1 } 1 ⟨rfl, rfl, rfl⟩ ⟨rfl, .inr rfl⟩ (by decide)
  have hvalue : half.exactValue = 5 / 10 := by
    rw [Value.exactValue_of_decimal rfl]
    norm_num [half, numericValueOf, Value.numericValue, Numeric.value]
  have hfit : |truncateAt 1 half.exactValue| < 10 ^ (1 - 1) := by
    rw [abs_truncateAt_lt, hvalue]
    norm_num
  rw [CastsToFit, if_pos hfit, herror]
  simp

end Vsql
