import Vsql.Values.KeyOrder
import Vsql.Values.StoreAssignment

/-!
# Comparing with a stored value

A value that a column can hold exactly is stored as a value that is equal to it.
Comparing a value of the column with the one is then the same as comparing it
with the other, unless the comparison with the first one is inexact.  So the key
of the value of the column is on the side of the key of the stored value that
the comparison says.
-/

namespace Vsql

open Foundation
open Foundation.OrderedCode

/-! ## Values of one kind -/

namespace Value

variable {tz : TimeZone} {x y z : Value} {c : CompareResult}

/-- The kinds of values that can be compared, and how they are. -/
inductive Compares (tz : TimeZone) (x y : Value) : CompareResult → Prop where
  | numbers (hx : x.typ.typ.isNumber) (hy : y.typ.typ.isNumber) :
      Compares tz x y (compareNumbers x y)
  | strings (hx : x.typ.typ.isString) (hy : y.typ.typ.isString) :
      Compares tz x y (compareStrings x.stringValue y.stringValue)
  | datetimes {t u : Time} (hx : x.timeValue? = some t) (hy : y.timeValue? = some u)
      (hfields : x.typ.typ.datetimeFields = y.typ.typ.datetimeFields) :
      Compares tz x y (compareDatetimes tz t u)
  | booleans (hx : x.typ.typ = .boolean) (hy : y.typ.typ = .boolean) :
      Compares tz x y (compareBooleans x.boolValue y.boolValue)

theorem compares_of_compare (hx : x.isNull = false) (hy : y.isNull = false)
    (h : compare tz x y = .ok c) : Compares tz x y c := by
  unfold compare at h
  rw [hx, hy, if_neg (by simp)] at h
  split at h
  · next hnum =>
      cases h
      exact .numbers hnum.1 hnum.2
  · split at h
    · next hstr =>
        cases h
        exact .strings hstr.1 hstr.2
    · split at h
      · next hxt hyt =>
          split at h
          · next hfields =>
              cases h
              exact .datetimes hxt hyt hfields
          · cases h
      · split at h
        · next hbool =>
            cases h
            exact .booleans hbool.1 hbool.2
        · cases h

theorem isDatetime_of_timeValue? {t : Time} (h : x.timeValue? = some t) :
    x.typ.typ.isDatetime ∧ t.typ.typ = x.typ.typ := by
  unfold timeValue? at h
  split at h
  · next u hv =>
      cases h
      exact x.fits (.time t) (by rw [hv]; rfl)
  · cases h

/-! ## Exact numbers -/

/-- The fraction of an exact number. -/
theorem asExactNumeric_denominator_pos (hnull : x.isNull = false) :
    0 < x.asExactNumeric.denominator := by
  unfold asExactNumeric
  split
  · next hdec => exact (numericValue_fits hnull hdec).denominator.1
  · exact Int.one_pos

/-- Exact numbers compare by cross multiplication. -/
theorem compareNumbers_exact (hnull : x.isNull = false)
    (hx : x.typ.typ.isExactDecimal ∨ x.typ.typ.isInteger)
    (hy : y.typ.typ.isExactDecimal ∨ y.typ.typ.isInteger) :
    compareNumbers x y =
      compareInts (x.asExactNumeric.numerator * y.asExactNumeric.denominator)
        (y.asExactNumeric.numerator * x.asExactNumeric.denominator) := by
  have hpos := asExactNumeric_denominator_pos hnull
  have hcmp : x.asExactNumeric.compare y.asExactNumeric =
      compareInts (x.asExactNumeric.numerator * y.asExactNumeric.denominator)
        (y.asExactNumeric.numerator * x.asExactNumeric.denominator) := by
    rw [Numeric.compare_eq hpos, compareInts]
  rw [← hcmp]
  have hexclusive : ∀ typ : SqlType, typ.isInteger → typ.isExactDecimal = false := by
    intro typ htyp
    revert htyp
    cases typ <;> simp [SqlType.isInteger, SqlType.isExactDecimal]
  unfold compareNumbers
  obtain hx | hx := hx
  · obtain hy | hy := hy
    · simp [hx, hy, asExactNumeric]
    · simp [hx, hy, hexclusive _ hy]
  · obtain hy | hy := hy
    · simp [hx, hy, hexclusive _ hx]
    · rw [hcmp]
      simp [hx, hy, hexclusive _ hx, hexclusive _ hy, asExactNumeric, Numeric.ofInt]

/-- Numbers that are equal to each other compare the same with a third one. -/
theorem compareInts_mul_congr {xn yn zn xd yd zd : Int} (hy : 0 < yd) (hz : 0 < zd)
    (h : yn * zd = zn * yd) :
    compareInts (xn * yd) (yn * xd) = compareInts (xn * zd) (zn * xd) := by
  have hscale : ∀ a b k : Int, 0 < k → compareInts (a * k) (b * k) = compareInts a b := by
    intro a b k hk
    simp only [compareInts, mul_lt_mul_iff_left₀ hk]
  have hright : yn * xd * zd = zn * xd * yd := by
    rw [mul_right_comm, h]
    ring
  rw [← hscale _ _ zd hz, hright, mul_right_comm, hscale _ _ yd hy]

theorem compareNumbers_congr (hx : x.isNull = false) (hy : y.isNull = false)
    (hz : z.isNull = false) (hxe : x.typ.typ.isExactDecimal ∨ x.typ.typ.isInteger)
    (hye : y.typ.typ.isExactDecimal ∨ y.typ.typ.isInteger)
    (hze : z.typ.typ.isExactDecimal ∨ z.typ.typ.isInteger)
    (heq : compareNumbers y z = .isEqual) : compareNumbers x y = compareNumbers x z := by
  rw [compareNumbers_exact hy hye hze, compareInts_eq_isEqual] at heq
  rw [compareNumbers_exact hx hxe hye, compareNumbers_exact hx hxe hze]
  exact compareInts_mul_congr (asExactNumeric_denominator_pos hy)
    (asExactNumeric_denominator_pos hz) heq

/-! ## Approximate numbers -/

theorem compareNumbers_approximate
    (h : x.typ.typ.isApproximate ∨ y.typ.typ.isApproximate) :
    compareNumbers x y = compareF64 x.asF64 y.asF64 := by
  unfold compareNumbers
  revert h
  cases x.typ.typ <;> cases y.typ.typ <;>
    simp [SqlType.isApproximate, SqlType.isExactDecimal, SqlType.isInteger]

theorem compareF64_congr {a b c : F64} (ha : a.isNaN = false) (hb : b.isNaN = false)
    (hc : c.isNaN = false) (heq : compareF64 b c = .isEqual) :
    compareF64 a b = compareF64 a c := by
  rw [compareF64_eq hb hc, compareInts_eq_isEqual] at heq
  rw [compareF64_eq ha hb, compareF64_eq ha hc, heq]

theorem isNaN_asF64 (hx : x.typ.typ.isApproximate) : x.asF64.isNaN = x.isNaN := by
  have hasF64 : x.asF64 = x.f64Value := by
    unfold asF64
    revert hx
    cases x.typ.typ <;> simp [SqlType.isApproximate, SqlType.isExactDecimal,
      SqlType.isInteger]
  have hzero : (BinaryFloat.ofInt 0 : F64).isNaN = false := by
    simp [BinaryFloat.isNaN, magnitude_ofInt_zero]
  rw [hasF64]
  unfold f64Value isNaN
  cases x.v with
  | none => exact hzero
  | some content =>
      cases content
      case f64 a => rfl
      all_goals exact hzero

theorem isNaN_of_exact (hx : x.typ.typ.isApproximate = false) : x.isNaN = false := by
  unfold isNaN
  split
  · next a hv =>
      have hfits := x.fits (.f64 a) (by rw [hv]; rfl)
      obtain htyp | ⟨htyp, -⟩ := hfits <;> simp [htyp, SqlType.isApproximate] at hx
  · rfl

/-! ## Datetimes -/

/-- Without a time zone the fields are compared, in every time zone. -/
theorem compareInts_i64 {t u : Time} (htyp : t.typ.typ = u.typ.typ)
    (htime : t.typ.typ.isTime = false) (timeZone : TimeZone) :
    compareInts t.i64 u.i64 =
      compareInts (t.utcMicros timeZone) (u.utcMicros timeZone) := by
  have htu := DateTime.i64_lt_iff t.valid u.valid
  have hut := DateTime.i64_lt_iff u.valid t.valid
  have hlt : ∀ a b : Int, a - timeZone.1 * 60000000 < b - timeZone.1 * 60000000 ↔ a < b := by
    intro a b
    omega
  rw [Time.utcMicros_eq, Time.utcMicros_eq, ← htyp, htime]
  simp only [compareInts, Bool.false_eq_true, if_false, hlt, Time.i64, htu, hut]

/-- The value of a time that is compared, in the time zone that it is compared in. -/
def instant (sessionTimeZone : TimeZone) (t : Time) : Int :=
  t.utcMicros (if t.typ.typ.hasTimeZone then t.timeZone else sessionTimeZone)

theorem compareDatetimes_of_hasTimeZone {t u : Time}
    (h : t.typ.typ.hasTimeZone ∨ u.typ.typ.hasTimeZone) :
    compareDatetimes tz t u = compareInts (instant tz t) (instant tz u) := by
  rw [compareDatetimes, if_pos h]
  rfl

theorem compareDatetimes_of_not_hasTimeZone {t u : Time}
    (ht : t.typ.typ.hasTimeZone = false) (hu : u.typ.typ.hasTimeZone = false) :
    compareDatetimes tz t u = compareInts t.i64 u.i64 := by
  rw [compareDatetimes, if_neg (by simp [ht, hu])]

/-- The only inexact comparison of datetimes: a TIME wraps around midnight when it
is compared in UTC. -/
def wrapsAround (a b : SqlType) : Bool :=
  a == .timeWithoutTimeZone && b == .timeWithTimeZone

theorem compareDatetimes_congr {t u w : Time} (htyp : t.typ.typ = u.typ.typ)
    (hfields : t.typ.typ.datetimeFields = w.typ.typ.datetimeFields)
    (hdt : t.typ.typ.isDatetime)
    (hwrap : wrapsAround t.typ.typ w.typ.typ = false)
    (heq : compareDatetimes tz u w = .isEqual) :
    compareDatetimes tz t u = compareDatetimes tz t w := by
  by_cases hzone : t.typ.typ.hasTimeZone
  · rw [compareDatetimes_of_hasTimeZone (.inl (htyp ▸ hzone)), compareInts_eq_isEqual] at heq
    rw [compareDatetimes_of_hasTimeZone (.inl hzone),
      compareDatetimes_of_hasTimeZone (.inl hzone), heq]
  · rw [Bool.not_eq_true] at hzone
    have huzone : u.typ.typ.hasTimeZone = false := htyp ▸ hzone
    rw [compareDatetimes_of_not_hasTimeZone hzone huzone]
    by_cases hwzone : w.typ.typ.hasTimeZone
    · have htime : t.typ.typ.isTime = false := by
        revert hzone hwzone hfields hwrap hdt
        cases t.typ.typ <;> cases w.typ.typ <;>
          simp [SqlType.hasTimeZone, SqlType.isTime, SqlType.isDatetime,
            SqlType.datetimeFields, wrapsAround]
      rw [compareDatetimes_of_hasTimeZone (.inr hwzone), compareInts_eq_isEqual] at heq
      rw [compareDatetimes_of_hasTimeZone (.inr hwzone), compareInts_i64 htyp htime tz,
        ← heq, instant, instant, hzone, huzone]
      rfl
    · rw [Bool.not_eq_true] at hwzone
      rw [compareDatetimes_of_not_hasTimeZone huzone hwzone, compareInts_eq_isEqual] at heq
      rw [compareDatetimes_of_not_hasTimeZone hzone hwzone, heq]

/-! ## Every kind -/

theorem compareBooleans_congr {a b c : Bool} (heq : compareBooleans b c = .isEqual) :
    compareBooleans a b = compareBooleans a c := by
  revert heq
  cases a <;> cases b <;> cases c <;> simp [compareBooleans]

/-- Comparing a value of a column with `value` may not be exact: numbers are
compared as `f64`, and a TIME is compared in UTC. -/
def isInexact (row value : Value) : Bool :=
  if row.typ.typ.isApproximate then row.isNaN || value.asF64.isNaN
  else (row.typ.typ.isNumber && value.typ.typ.isApproximate) ||
    wrapsAround row.typ.typ value.typ.typ

variable {row stored value : Value}

theorem compare_of_isNumber (hx : x.isNull = false) (hy : y.isNull = false)
    (hxn : x.typ.typ.isNumber) (hyn : y.typ.typ.isNumber) :
    compare tz x y = .ok (compareNumbers x y) := by
  unfold compare
  rw [hx, hy, if_neg (by simp), if_pos ⟨hxn, hyn⟩]

theorem compare_of_isString (hx : x.isNull = false) (hy : y.isNull = false)
    (hxs : x.typ.typ.isString) (hys : y.typ.typ.isString) :
    compare tz x y = .ok (compareStrings x.stringValue y.stringValue) := by
  have hnum : ¬x.typ.typ.isNumber := by
    revert hxs
    cases x.typ.typ <;> simp [SqlType.isString, SqlType.isNumber]
  unfold compare
  rw [hx, hy, if_neg (by simp), if_neg (fun h => hnum h.1), if_pos ⟨hxs, hys⟩]

theorem compare_of_timeValue? {t u : Time} (hx : x.isNull = false) (hy : y.isNull = false)
    (hxt : x.timeValue? = some t) (hyt : y.timeValue? = some u)
    (hfields : x.typ.typ.datetimeFields = y.typ.typ.datetimeFields) :
    compare tz x y = .ok (compareDatetimes tz t u) := by
  have hnot : ¬x.typ.typ.isNumber ∧ ¬x.typ.typ.isString := by
    have hdt := (isDatetime_of_timeValue? hxt).1
    revert hdt
    cases x.typ.typ <;> simp [SqlType.isDatetime, SqlType.isString, SqlType.isNumber]
  unfold compare
  rw [hx, hy, hxt, hyt, if_neg (by simp), if_neg (fun h => hnot.1 h.1),
    if_neg (fun h => hnot.2 h.1)]
  exact if_pos hfields

theorem compare_of_boolean (hx : x.isNull = false) (hy : y.isNull = false)
    (hxb : x.typ.typ = .boolean) (hyb : y.typ.typ = .boolean) :
    compare tz x y = .ok (compareBooleans x.boolValue y.boolValue) := by
  have hnone : x.timeValue? = none := timeValue?_eq_none (by rw [hxb]; rfl)
  unfold compare
  rw [hx, hy, hxb, hyb, hnone]
  rfl

theorem isExact_of_isNumber {typ : SqlType} (h : typ.isNumber)
    (happrox : typ.isApproximate = false) :
    typ.isExactDecimal ∨ typ.isInteger := by
  revert h happrox
  cases typ <;> simp [SqlType.isNumber, SqlType.isApproximate, SqlType.isExactDecimal,
    SqlType.isInteger]

theorem compareNumbers_stored (hrow : row.isNull = false) (hstored : stored.isNull = false)
    (hvalue : value.isNull = false) (htyp : row.typ.typ = stored.typ.typ)
    (hstoredNaN : stored.isNaN = false) (hnum : row.typ.typ.isNumber)
    (hvnum : value.typ.typ.isNumber) (hexact : isInexact row value = false)
    (heq : compareNumbers stored value = .isEqual) :
    compareNumbers row stored = compareNumbers row value := by
  by_cases happrox : row.typ.typ.isApproximate
  · rw [isInexact, if_pos happrox, Bool.or_eq_false_iff] at hexact
    have happrox' : stored.typ.typ.isApproximate := htyp ▸ happrox
    rw [compareNumbers_approximate (.inl happrox')] at heq
    rw [compareNumbers_approximate (.inl happrox),
      compareNumbers_approximate (.inl happrox)]
    exact compareF64_congr (by rw [isNaN_asF64 happrox, hexact.1])
      (by rw [isNaN_asF64 happrox', hstoredNaN]) hexact.2 heq
  · rw [isInexact, if_neg happrox, hnum, Bool.true_and, Bool.or_eq_false_iff] at hexact
    rw [Bool.not_eq_true] at happrox
    exact compareNumbers_congr hrow hstored hvalue (isExact_of_isNumber hnum happrox)
      (isExact_of_isNumber (htyp ▸ hnum) (htyp ▸ happrox))
      (isExact_of_isNumber hvnum hexact.1) heq

theorem isNaN_of_not_isInexact (hexact : isInexact row value = false) :
    row.isNaN = false := by
  by_cases happrox : row.typ.typ.isApproximate
  · rw [isInexact, if_pos happrox, Bool.or_eq_false_iff] at hexact
    exact hexact.1
  · exact isNaN_of_exact (by simpa using happrox)

end Value

section

variable {tz : TimeZone} {row stored value : Value} {c : CompareResult}

open Value

/-- The keys of a value of the column and of the stored value are in the order that
the comparison with the value itself found. -/
theorem agrees_stored (hrow : row.isNull = false) (hstored : stored.isNull = false)
    (hvalue : value.isNull = false) (htyp : row.typ.typ = stored.typ.typ)
    (hscale : row.typ.typ.isExactDecimal → row.typ.scale = stored.typ.scale)
    (hstoredNaN : stored.isNaN = false)
    (hexact : isInexact row value = false) (hcmp : compare tz row value = .ok c)
    (heq : compare tz stored value = .ok .isEqual) :
    Agrees c (writeKeyValue row row.typ.typ) (writeKeyValue stored row.typ.typ) := by
  have hrowNaN := isNaN_of_not_isInexact hexact
  have hsame : compare tz row stored = .ok c →
      Agrees c (writeKeyValue row row.typ.typ) (writeKeyValue stored row.typ.typ) :=
    agrees_writeKeyValue hrow hstored hrowNaN hstoredNaN htyp hscale
  cases compares_of_compare hrow hvalue hcmp with
  | numbers hnum hvnum =>
      have hnum' : stored.typ.typ.isNumber := htyp ▸ hnum
      rw [compare_of_isNumber hstored hvalue hnum' hvnum] at heq
      refine hsame ?_
      rw [compare_of_isNumber hrow hstored hnum hnum', compareNumbers_stored hrow hstored
        hvalue htyp hstoredNaN hnum hvnum hexact (Except.ok.inj heq)]
  | strings hstr hvstr =>
      rw [compare_of_isString hstored hvalue (htyp ▸ hstr) hvstr] at heq
      have hkey : ∀ w : Value, writeKeyValue w row.typ.typ = writeKeyString w.stringValue := by
        intro w
        unfold writeKeyValue
        revert hstr
        cases row.typ.typ <;> simp [SqlType.isString]
      have hequal := (agrees_writeKeyString stored.stringValue value.stringValue).2.1
        (Except.ok.inj heq)
      rw [hkey, hkey, hequal]
      exact agrees_writeKeyString row.stringValue value.stringValue
  | @datetimes t w ht hw hfields =>
      obtain ⟨hdt, htt⟩ := isDatetime_of_timeValue? ht
      obtain ⟨-, hwt⟩ := isDatetime_of_timeValue? hw
      obtain ⟨u, hu, hut⟩ := exists_time hstored (htyp ▸ hdt)
      rw [compare_of_timeValue? hstored hvalue hu hw (htyp ▸ hfields)] at heq
      have hwrap : wrapsAround row.typ.typ value.typ.typ = false := by
        have hnot : row.typ.typ.isApproximate = false := by
          revert hdt
          cases row.typ.typ <;> simp [SqlType.isDatetime, SqlType.isApproximate]
        rw [isInexact, hnot, if_neg (by simp), Bool.or_eq_false_iff] at hexact
        exact hexact.2
      refine hsame ?_
      rw [compare_of_timeValue? hrow hstored ht hu (by rw [htyp])]
      rw [← htt, ← hwt] at hwrap hfields
      exact congrArg Except.ok (compareDatetimes_congr (by rw [htt, hut, htyp]) hfields
        (by rw [htt, hdt]) hwrap (Except.ok.inj heq))
  | booleans hbool hvbool =>
      rw [compare_of_boolean hstored hvalue (htyp ▸ hbool) hvbool] at heq
      refine hsame ?_
      rw [compare_of_boolean hrow hstored hbool (htyp ▸ hbool),
        compareBooleans_congr (Except.ok.inj heq)]

/-! ## The stored value is not NaN -/

theorem isNaN_ofContent {t : DataType} {x : F64} {w : Value} (hx : x.isNaN = false)
    (h : Value.ofContent t (.f64 x) = .ok w) : w.isNaN = false := by
  obtain ⟨-, hv⟩ := Value.ofContent_eq_ok h
  rw [isNaN, hv]
  exact hx

theorem isNaN_exactCast {t : DataType} (hvalue : value.isNull = false)
    (hnan : t.typ.isApproximate → value.asF64.isNaN = false)
    (h : exactCast tz value t = .ok stored) : stored.isNaN = false := by
  obtain ⟨hcast, -⟩ := exactCast_eq_ok h
  have htyp := (storedAs_cast hvalue hcast).typ
  by_cases happrox : t.typ.isApproximate
  · have hx := hnan happrox
    have hkind : t.typ.isString = false ∧ t.typ ≠ .boolean ∧ t.typ.isDatetime = false := by
      revert happrox
      cases t.typ <;> simp [SqlType.isApproximate, SqlType.isString, SqlType.isDatetime]
    unfold cast at hcast
    simp only [hvalue, hkind.1, hkind.2.1, hkind.2.2, Bool.false_and, Bool.false_eq_true,
      if_false, decide_false] at hcast
    split at hcast
    · split at hcast
      · next heq =>
          cases hcast
          rw [← isNaN_asF64 (by rw [heq, happrox])]
          exact hx
      · have hreal : (asReal value.asF64).isNaN = false :=
          BinaryFloat.isNaN_convert (BinaryFloat.isNaN_convert hx)
        unfold castNumeric at hcast
        split at hcast
        case h_4 =>
          simp only at hcast
          split at hcast
          · cases hcast
          · exact isNaN_ofContent hreal hcast
        case h_5 =>
          simp only at hcast
          split at hcast
          · cases hcast
          · exact isNaN_ofContent hx hcast
        all_goals simp_all [SqlType.isApproximate]
    · split at hcast <;> cases hcast
  · exact isNaN_of_exact (by rw [htyp]; simpa using happrox)

end

end Vsql
