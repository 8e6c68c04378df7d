import Vsql.Queries.ExactComparison
import Vsql.Values.CombinedType
import Vsql.Values.NumericCast

/-!
# Converting to a combined type

A value is converted to the type that its own was combined to.  The result is equal to the
value, unless an approximate number or the largest precision is involved.
-/

namespace Vsql

open Foundation

/-! ## The conversion -/

def Value.withType (v : Value) (typ : DataType) : Except Failure Value :=
  match v.v with
  | some c => Value.ofContent typ c
  | none => .ok (Value.null typ)

/-- A NUMERIC without a precision has no limit, so the value keeps its own. -/
def convertToCombinedType (tz : TimeZone) (v : Value) (typ : DataType) :
    Except Failure Value := do
  let target : DataType :=
    if typ.typ.isExactDecimal && typ.size == 0 && v.typ.typ.isExactDecimal then
      { typ := typ.typ, size := v.typ.size, scale := v.typ.scale }
    else { typ := typ.typ, size := typ.size, scale := typ.scale }
  if v.typ.typ = target.typ ∧ v.typ.size = target.size ∧
      v.typ.scale = target.scale then pure v
  else do
    let value ← cast tz v target
    value.withType target

/-- The type that `convertToCombinedType` converts the value to. -/
def conversionType (v : Value) (t : DataType) : DataType :=
  if t.typ.isExactDecimal && t.size == 0 && v.typ.typ.isExactDecimal then
    { typ := t.typ, size := v.typ.size, scale := v.typ.scale }
  else { typ := t.typ, size := t.size, scale := t.scale }

theorem convertToCombinedType_eq (tz : TimeZone) (v : Value) (t : DataType) :
    convertToCombinedType tz v t =
      if v.typ.typ = (conversionType v t).typ ∧ v.typ.size = (conversionType v t).size ∧
          v.typ.scale = (conversionType v t).scale then .ok v
      else cast tz v (conversionType v t) >>= fun value =>
        value.withType (conversionType v t) := rfl

/-- A value that an expression of the type yields, other than NULL. -/
structure Value.Of (t : DataType) (v : Value) : Prop where
  notNull : v.isNull = false
  typ : v.typ.typ = t.typ
  string : t.typ.isString → t.typ = .varchar ∧ t.size = 0 ∨ runes v.stringValue ≤ t.size
  -- A value of a type without a precision has its own.
  precision : t.typ.isExactDecimal → t.size ≠ 0 → v.typ.size = t.size ∧ v.typ.scale = t.scale
  digits : t.typ.isExactDecimal →
    |v.exactValue| < 10 ^ (v.typ.numericPrecision - v.typ.scale) ∧
      truncateAt v.typ.scale v.exactValue = v.exactValue
  date : t.typ = .date → v.typ.size = 0 ∧ v.typ.scale = 0
  time : ∀ x ∈ v.timeValue?, t.typ.category = .time → x.t.timeOfDay t.size = x.t
  timestamp : ∀ x ∈ v.timeValue?, t.typ.category = .timestamp →
    x.t.truncate t.size = x.t ∧ x.t.year ≤ 9999

/-! ## The type of the result -/

section

variable {tz : TimeZone} {v w u : Value} {t : DataType}

theorem Content.Fits.congr {c : Content} {t u : DataType} (h : c.Fits t) (htyp : t.typ = u.typ)
    (hscale : t.typ.isExactDecimal → t.scale = u.scale) : c.Fits u := by
  cases c with
  | numeric x =>
      obtain ⟨hdecimal, hx, hden, hnum⟩ := h
      rw [hscale hdecimal] at hx hden
      exact ⟨htyp ▸ hdecimal, hx, hden, hnum⟩
  | _ =>
      simp only [Content.Fits] at h ⊢
      rw [← htyp]
      exact h

/-- A value that was cast to a type can have the type. -/
theorem withType_ok (h : v.StoredAs t) : ∃ w, v.withType t = .ok w ∧ w.typ = t ∧ w.v = v.v := by
  unfold Value.withType
  cases hv : v.v with
  | none =>
      have hnull := h.notNull
      simp [Value.isNull, hv] at hnull
  | some c =>
      have hfits : c.Fits t :=
        (v.fits c hv).congr h.typ (fun hdecimal => h.scale (h.typ ▸ hdecimal))
      refine ⟨⟨t, some c, by simpa using hfits⟩, ?_, rfl, rfl⟩
      simp [Value.ofContent, hfits]

/-- The value is converted to one of the type, which is equal to it. -/
def Converts (tz : TimeZone) (v : Value) (t : DataType) : Prop :=
  ∃ w, convertToCombinedType tz v t = .ok w ∧ w.typ.typ = t.typ ∧
    Value.compare tz w v = .ok .isEqual

theorem typ_conversionType (v : Value) (t : DataType) : (conversionType v t).typ = t.typ := by
  unfold conversionType
  split_ifs <;> rfl

theorem conversionType_of_not_decimal (hv : v.typ.typ.isExactDecimal = false) :
    conversionType v t = { t with notNull := false } := by
  simp [conversionType, hv]

theorem converts_of_cast (hv : v.isNull = false) (hcast : cast tz v (conversionType v t) = .ok u)
    (hself : Value.compare tz v v = .ok .isEqual)
    (heq : ∀ w : Value, w.typ.typ = t.typ → w.v = u.v → Value.compare tz w v = .ok .isEqual) :
    Converts tz v t := by
  unfold Converts
  rw [convertToCombinedType_eq]
  split_ifs with hsame
  · exact ⟨v, rfl, hsame.1.trans (typ_conversionType v t), hself⟩
  · obtain ⟨w, hw, htyp, hwv⟩ := withType_ok (storedAs_cast hv hcast)
    have htyp' : w.typ.typ = t.typ := by rw [htyp, typ_conversionType]
    refine ⟨w, ?_, htyp', heq w htyp' hwv⟩
    rw [hcast]
    exact hw

/-! ## Strings -/

open Value

theorem compareStrings_append_spaces (s : Bytes) (k : Nat) :
    compareStrings (s ++ List.replicate k 32) s = .isEqual := by
  have hpad : ∀ n, s.length + k ≤ n → padTo n (s ++ List.replicate k 32) = padTo n s := by
    intro n hn
    simp only [padTo, List.append_assoc, List.length_append, List.length_replicate,
      List.replicate_append_replicate]
    congr 2
    omega
  simp only [compareStrings]
  rw [hpad _ (by simp), if_neg (lt_irrefl _), if_neg (lt_irrefl _)]

theorem compare_of_string {n : Nat} (hv : v.isNull = false) (hstring : v.typ.typ.isString)
    (hw : w.typ.typ.isString)
    (hwv : w.v = some (.string (v.stringValue ++ List.replicate n 32))) :
    Value.compare tz w v = .ok .isEqual := by
  have hwnull : w.isNull = false := by simp [Value.isNull, hwv]
  have hwstring : w.stringValue = v.stringValue ++ List.replicate n 32 := by
    simp [Value.stringValue, hwv]
  rw [compare_of_isString hwnull hv hw hstring, hwstring, compareStrings_append_spaces]

/-- A string that is not longer than the type is kept, or padded with spaces. -/
theorem castString_ok (ht : t.typ.isString)
    (hsize : t.typ = .varchar ∧ t.size = 0 ∨ runes v.stringValue ≤ t.size) :
    ∃ u n, castString v t = .ok u ∧
      u.v = some (.string (v.stringValue ++ List.replicate n 32)) := by
  have hok : ∀ (typ : SqlType) (m : Nat) (s : Bytes), typ.isString →
      ∃ u, Value.ofContent { typ := typ, size := m } (.string s) = .ok u ∧
        u.v = some (.string s) := by
    intro typ m s htyp
    refine ⟨⟨{ typ := typ, size := m }, some (.string s), ?_⟩, ?_, rfl⟩
    · simpa [Content.Fits] using htyp
    · simp [Value.ofContent, Content.Fits, htyp]
  obtain htyp | htyp : t.typ = .character ∨ t.typ = .varchar := by
    revert ht
    cases t.typ <;> simp [SqlType.isString]
  · have hle : runes v.stringValue ≤ t.size := by simpa [htyp] using hsize
    simp only [castString, htyp]
    obtain heq | hlt := hle.eq_or_lt
    · obtain ⟨u, hu, hv⟩ := hok .character (runes v.stringValue) v.stringValue rfl
      refine ⟨u, 0, ?_, by simpa using hv⟩
      rw [if_pos heq.symm, hu]
    · obtain ⟨u, hu, hv⟩ := hok .character
        (runes (v.stringValue ++ List.replicate (t.size - runes v.stringValue) 32))
        (v.stringValue ++ List.replicate (t.size - runes v.stringValue) 32) rfl
      refine ⟨u, _, ?_, hv⟩
      rw [if_neg (by omega), if_neg (by omega), hu]
  · have hle : t.size = 0 ∨ runes v.stringValue ≤ t.size := by simpa [htyp] using hsize
    obtain ⟨u, hu, hv⟩ := hok .varchar (runes v.stringValue) v.stringValue rfl
    refine ⟨u, 0, ?_, by simpa using hv⟩
    simp only [castString, htyp, if_pos hle, hu]

theorem converts_string (hv : v.isNull = false) (hstring : v.typ.typ.isString)
    (ht : t.typ.isString)
    (hsize : t.typ = .varchar ∧ t.size = 0 ∨ runes v.stringValue ≤ t.size) :
    Converts tz v t := by
  have htarget : conversionType v t = { t with notNull := false } := by
    apply conversionType_of_not_decimal
    revert hstring
    cases v.typ.typ <;> decide
  obtain ⟨u, n, hu, huv⟩ := @castString_ok v { t with notNull := false } ht hsize
  refine converts_of_cast hv (u := u) ?_ ?_ ?_
  · rw [htarget]
    unfold cast
    simp [hv, ht, hstring, hu]
  · rw [compare_of_isString hv hv hstring hstring]
    have hself := compareStrings_append_spaces v.stringValue 0
    simpa using hself
  · intro w hwtyp hwv
    exact compare_of_string hv hstring (by rw [hwtyp, ht]) (hwv.trans huv)

/-! ## Booleans -/

theorem converts_boolean (hv : v.isNull = false) (hbool : v.typ.typ = .boolean)
    (ht : t.typ = .boolean) : Converts tz v t := by
  have hequal : ∀ b, compareBooleans b b = .isEqual := by decide
  have htarget : conversionType v t = { t with notNull := false } :=
    conversionType_of_not_decimal (by rw [hbool]; rfl)
  refine converts_of_cast hv (u := v) ?_ ?_ ?_
  · rw [htarget]
    simp [cast, hv, ht, hbool, SqlType.isString, SqlType.isNumber]
  · rw [compare_of_boolean hv hv hbool hbool, hequal]
  · intro w hwtyp hwv
    have hwnull : w.isNull = false := by rw [← hv, Value.isNull, Value.isNull, hwv]
    have hwvalue : w.boolValue = v.boolValue := by rw [Value.boolValue, Value.boolValue, hwv]
    rw [compare_of_boolean hwnull hv (hwtyp.trans ht) hbool, hwvalue, hequal]

/-! ## Exact numbers -/

theorem compareNumbers_of_exactValue (hw : w.IsExact) (hv : v.IsExact)
    (h : w.exactValue = v.exactValue) : compareNumbers w v = .isEqual := by
  have hwden : (0 : ℚ) < w.asExactNumeric.denominator := by
    exact_mod_cast hw.denominator_pos
  have hvden : (0 : ℚ) < v.asExactNumeric.denominator := by
    exact_mod_cast hv.denominator_pos
  rw [compareNumbers_exact hw.notNull hw.typ.symm hv.typ.symm, compareInts_eq_isEqual]
  rw [Value.exactValue, Value.exactValue, Numeric.value, Numeric.value,
    div_eq_div_iff hwden.ne' hvden.ne'] at h
  exact_mod_cast h

theorem exactValue_congr (htyp : w.typ.typ = u.typ.typ) (hv : w.v = u.v) :
    w.exactValue = u.exactValue := by
  simp only [Value.exactValue, Value.asExactNumeric, Value.numericValue, Value.intValue, htyp, hv]

theorem compare_of_isExact (hw : w.IsExact) (hv : v.IsExact) (h : w.exactValue = v.exactValue) :
    Value.compare tz w v = .ok .isEqual := by
  have hnumber : ∀ {x : Value}, x.IsExact → x.typ.typ.isNumber := by
    intro x hx
    obtain htyp | htyp := hx.typ <;> revert htyp <;> cases x.typ.typ <;> decide
  rw [compare_of_isNumber hw.notNull hv.notNull (hnumber hw) (hnumber hv),
    compareNumbers_of_exactValue hw hv h]

theorem converts_exact (hv : v.IsExact) (ht : t.typ.isExact)
    (hcast : ∃ u, cast tz v (conversionType v t) = .ok u ∧ u.exactValue = v.exactValue) :
    Converts tz v t := by
  obtain ⟨u, hu, hvalue⟩ := hcast
  have hstored := storedAs_cast hv.notNull hu
  refine converts_of_cast hv.notNull hu (compare_of_isExact hv hv rfl) ?_
  intro w hwtyp hwv
  have hwnull : w.isNull = false := by
    have hunull := hstored.notNull
    rw [← hunull, Value.isNull, Value.isNull, hwv]
  have hexact : w.IsExact := by
    refine ⟨hwnull, ?_⟩
    rw [hwtyp]
    simpa [SqlType.isExact] using ht
  have htyp : w.typ.typ = u.typ.typ := by rw [hwtyp, hstored.typ, typ_conversionType]
  exact compare_of_isExact hexact hv (by rw [exactValue_congr htyp hwv, hvalue])

theorem exactValue_of_isInteger (h : v.typ.typ.isInteger) : v.exactValue = v.intValue := by
  have hdecimal : v.typ.typ.isExactDecimal = false := by
    revert h
    cases v.typ.typ <;> decide
  rw [Value.exactValue, Value.asExactNumeric, hdecimal, if_neg (by simp), Numeric.value_ofInt]

/-- An integer is in the range of a type that is not smaller. -/
theorem castNumeric_integer (hv : v.IsExact) (hint : v.typ.typ.isInteger)
    (ht : t.typ.isInteger) (hbits : v.typ.typ.intBits ≤ t.typ.intBits) :
    ∃ u, castNumeric v t = .ok u ∧ u.exactValue = v.exactValue := by
  have hbounds := intValue_bounds hv.notNull hint
  have hpow : (2 : Int) ^ (v.typ.typ.intBits - 1) ≤ 2 ^ (t.typ.intBits - 1) :=
    pow_le_pow_right₀ (by norm_num) (by omega)
  have hnumeric : v.asNumeric = Numeric.ofInt v.intValue := by
    have hdecimal : v.typ.typ.isExactDecimal = false := by
      revert hint
      cases v.typ.typ <;> decide
    rw [asNumeric_of_isExact hv, Value.asExactNumeric, hdecimal, if_neg (by simp)]
  have hrange : isOutOfRange (Numeric.ofInt v.intValue) t.typ = false := by
    simp only [isOutOfRange, Numeric.ofInt, mul_one, Bool.or_eq_false_iff, decide_eq_false_iff_not]
    omega
  have hfits : Content.Fits { typ := t.typ } (.int v.intValue) := by
    refine ⟨ht, ?_⟩
    simp only
    omega
  have hinteger : (Numeric.ofInt v.intValue).integer = v.intValue := by
    simp [Numeric.integer, Numeric.ofInt]
  refine ⟨⟨{ typ := t.typ }, some (.int v.intValue), by simpa using hfits⟩, ?_, ?_⟩
  · have hcast : castNumeric v t =
        if isOutOfRange v.asNumeric t.typ then .error sqlstate22003
        else Value.ofContent { typ := t.typ } (.int v.asNumeric.integer) := by
      revert ht
      unfold castNumeric
      cases t.typ <;> simp [SqlType.isInteger]
    rw [hcast, hnumeric, hrange, hinteger]
    simp [Value.ofContent, hfits]
  · rw [exactValue_of_isInteger hint, exactValue_of_isInteger ht]
    rfl

theorem converts_integer (hv : v.IsExact) (hint : v.typ.typ.isInteger)
    (ht : t.typ.isInteger) (hbits : v.typ.typ.intBits ≤ t.typ.intBits) : Converts tz v t := by
  have hdecimal : v.typ.typ.isExactDecimal = false := by
    revert hint
    cases v.typ.typ <;> decide
  refine converts_exact hv (by simp [SqlType.isExact, ht]) ?_
  rw [conversionType_of_not_decimal hdecimal]
  have hcast : cast tz v { t with notNull := false } =
      if v.typ = { t with notNull := false } then .ok v
      else castNumeric v { t with notNull := false } := by
    unfold cast
    revert hint ht
    cases hvt : v.typ.typ <;> cases htt : t.typ <;>
      simp [hv.notNull, SqlType.isInteger, SqlType.isString, SqlType.isNumber]
  rw [hcast]
  split_ifs
  · exact ⟨v, rfl, rfl⟩
  · exact castNumeric_integer hv hint ht hbits

theorem abs_intValue_lt (hv : v.isNull = false) (hint : v.typ.typ.isInteger) :
    |(v.intValue : ℚ)| < 10 ^ v.typ.integerDigits.toNat := by
  have hbounds := intValue_bounds hv hint
  have hlt : |v.intValue| < 10 ^ v.typ.integerDigits.toNat := by
    unfold DataType.integerDigits
    revert hint hbounds
    cases v.typ.typ <;> simp [SqlType.isInteger, SqlType.intBits, abs_lt] <;> omega
  exact_mod_cast hlt

theorem abs_exactValue_lt (hv : v.IsExact) : |v.exactValue| < 10 ^ maxNumericPrecision := by
  obtain hint | hdecimal := hv.typ
  · have hdigits : v.typ.integerDigits.toNat ≤ maxNumericPrecision := by
      unfold DataType.integerDigits
      revert hint
      cases v.typ.typ <;> simp [SqlType.isInteger, maxNumericPrecision]
    rw [exactValue_of_isInteger hint]
    exact lt_of_lt_of_le (abs_intValue_lt hv.notNull hint)
      (pow_le_pow_right₀ (by norm_num) hdigits)
  · obtain ⟨-, -, hden, hnum⟩ := numericValue_fits hv.notNull hdecimal
    rw [Value.exactValue_of_decimal hdecimal]
    exact (Numeric.natAbs_numerator_lt hden.1).mp hnum

/-- A number whose digits the type has is kept. -/
theorem converts_decimal (hv : v.IsExact) (ht : t.typ.isExactDecimal)
    (hscale : (conversionType v t).scale ≤ maxNumericPrecision)
    (hdigit : (conversionType v t).scale < (conversionType v t).numericPrecision)
    (hsmall : |v.exactValue| <
      10 ^ ((conversionType v t).numericPrecision - (conversionType v t).scale))
    (hfraction : truncateAt (conversionType v t).scale v.exactValue = v.exactValue) :
    Converts tz v t := by
  have htarget : (conversionType v t).typ.isExactDecimal := by rw [typ_conversionType, ht]
  refine converts_exact hv (by simp [SqlType.isExact, ht]) ?_
  rw [cast_numeric_eq hv htarget]
  split_ifs
  · exact ⟨v, rfl, rfl⟩
  · have hdigits := (integerDigits_le_iff hv.denominator_pos (by omega)).mpr hsmall
    obtain ⟨u, hu, -, hvalue⟩ :=
      castNumeric_ok_of_small hv htarget hscale (abs_exactValue_lt hv) hdigits
    exact ⟨u, hu, hvalue.trans hfraction⟩

/-! ## Datetimes -/

theorem compare_of_time {x y : Time} (hv : v.isNull = false) (hx : v.timeValue? = some x)
    (hw : w.timeValue? = some y) (hfields : w.typ.typ.datetimeFields = v.typ.typ.datetimeFields)
    (h : compareDatetimes tz y x = .isEqual) : Value.compare tz w v = .ok .isEqual := by
  have hwnull : w.isNull = false := by
    unfold Value.timeValue? at hw
    unfold Value.isNull
    split at hw
    · next hwv => rw [hwv]; rfl
    · cases hw
  rw [compare_of_timeValue? hwnull hv hw hx hfields, h]

/-- A datetime with the same fields is equal, if it is in the same time zone. -/
theorem compareDatetimes_of_fields {x y : Time} (hfields : y.t = x.t)
    (htime : y.typ.typ.isTime = x.typ.typ.isTime)
    (hzone : if y.typ.typ.hasTimeZone then
        y.timeZone = if x.typ.typ.hasTimeZone then x.timeZone else tz
      else x.typ.typ.hasTimeZone = false) :
    compareDatetimes tz y x = .isEqual := by
  split_ifs at hzone with hy hx
  · rw [compareDatetimes_of_hasTimeZone (.inl hy), compareInts_eq_isEqual, instant, instant,
      if_pos hy, if_pos hx, hzone, Time.utcMicros_eq, Time.utcMicros_eq, htime, hfields]
  · rw [compareDatetimes_of_hasTimeZone (.inl hy), compareInts_eq_isEqual, instant, instant,
      if_pos hy, if_neg hx, hzone, Time.utcMicros_eq, Time.utcMicros_eq, htime, hfields]
  · rw [compareDatetimes_of_not_hasTimeZone (by simpa using hy) hzone, compareInts_eq_isEqual,
      Time.i64, Time.i64, hfields]

theorem castDatetime_ok {x : Time} (ht : t.typ.category = .time ∧ x.t.timeOfDay t.size = x.t ∨
      t.typ.category = .timestamp ∧ x.t.truncate t.size = x.t ∧ x.t.year ≤ 9999) :
    ∃ u y, castDatetime tz x t = .ok u ∧ u.timeValue? = some y ∧ y.t = x.t ∧
      y.typ.typ = t.typ ∧ y.timeZone =
        if t.typ.hasTimeZone then if x.typ.typ.hasTimeZone then x.timeZone else tz
        else noTimeZone := by
  have hok : ∀ y : Time, y.typ = { typ := t.typ, size := t.size } → t.typ.isDatetime →
      ∃ u, Value.ofContent { typ := t.typ, size := t.size } (.time y) = .ok u ∧
        u.timeValue? = some y := by
    intro y hy hdatetime
    have hfits : Content.Fits { typ := t.typ, size := t.size } (.time y) :=
      ⟨hdatetime, by rw [hy]⟩
    exact ⟨⟨_, some (.time y), by simpa using hfits⟩, by simp [Value.ofContent, hfits], rfl⟩
  obtain ⟨hcategory, hkeep⟩ | ⟨hcategory, hkeep, hyear⟩ := ht
  · obtain ⟨u, hu, hy⟩ := hok ⟨{ typ := t.typ, size := t.size },
      if t.typ.hasTimeZone then if x.typ.typ.hasTimeZone then x.timeZone else tz else noTimeZone,
      x.t.timeOfDay t.size, x.valid.timeOfDay t.size⟩ rfl
      (by revert hcategory; cases t.typ <;> decide)
    refine ⟨u, _, ?_, hy, hkeep, rfl, rfl⟩
    rw [← hu]
    revert hcategory
    unfold castDatetime
    cases htyp : t.typ <;> simp [SqlType.category]
  · obtain ⟨u, hu, hy⟩ := hok ⟨{ typ := t.typ, size := t.size },
      if t.typ.hasTimeZone then if x.typ.typ.hasTimeZone then x.timeZone else tz else noTimeZone,
      x.t.truncate t.size, x.valid.truncate t.size⟩ rfl
      (by revert hcategory; cases t.typ <;> decide)
    refine ⟨u, _, ?_, hy, hkeep, rfl, rfl⟩
    rw [← hu]
    revert hcategory
    unfold castDatetime
    cases htyp : t.typ <;> simp [SqlType.category, hyear]

theorem converts_datetime {x : Time} (hv : v.isNull = false) (hx : v.timeValue? = some x)
    (hcategory : v.typ.typ.category = t.typ.category)
    (hzone : x.typ.typ.hasTimeZone → t.typ.hasTimeZone)
    (ht : t.typ.category = .time ∧ x.t.timeOfDay t.size = x.t ∨
      t.typ.category = .timestamp ∧ x.t.truncate t.size = x.t ∧ x.t.year ≤ 9999) :
    Converts tz v t := by
  obtain ⟨hdatetime, hxtyp⟩ := isDatetime_of_timeValue? hx
  have hcategory' : v.typ.typ.category = .time ∨ v.typ.typ.category = .timestamp := by
    rw [hcategory]
    exact ht.imp And.left And.left
  have hfields : t.typ.datetimeFields = v.typ.typ.datetimeFields ∧
      t.typ.isTime = v.typ.typ.isTime ∧ t.typ.isDatetime := by
    revert hcategory hcategory'
    cases t.typ <;> cases v.typ.typ <;> decide
  have hdecimal : v.typ.typ.isExactDecimal = false ∧ v.typ.typ.isString = false ∧
      v.typ.typ.isNumber = false ∧ v.typ.typ ≠ .boolean := by
    revert hcategory'
    cases v.typ.typ <;> decide
  have hself : compareDatetimes tz x x = .isEqual :=
    compareDatetimes_of_fields rfl rfl (by split_ifs <;> simp_all)
  have hcast : cast tz v { t with notNull := false } =
      if v.typ = { t with notNull := false } then .ok v
      else castDatetime tz x { t with notNull := false } := by
    unfold cast
    simp [hv, hx, hdecimal, hfields]
  obtain ⟨u, y, hu, huy, hy⟩ : ∃ u y, cast tz v { t with notNull := false } = .ok u ∧
      u.timeValue? = some y ∧ compareDatetimes tz y x = .isEqual := by
    rw [hcast]
    split_ifs
    · exact ⟨v, x, rfl, hx, hself⟩
    · obtain ⟨u, y, hu, hy, hyt, hytyp, hyzone⟩ :=
        @castDatetime_ok tz { t with notNull := false } x ht
      refine ⟨u, y, hu, hy, compareDatetimes_of_fields hyt ?_ ?_⟩
      · rw [hytyp, hxtyp, hfields.2.1]
      · rw [hytyp, hyzone]
        split_ifs <;> simp_all
  refine converts_of_cast hv (u := u) ?_ ?_ ?_
  · rw [conversionType_of_not_decimal hdecimal.1, hu]
  · exact compare_of_time hv hx hx rfl hself
  · intro w hwtyp hwv
    have hwtime : w.timeValue? = some y := by
      rw [← huy, Value.timeValue?, Value.timeValue?, hwv]
    exact compare_of_time hv hx hwtime (by rw [hwtyp, hfields.1]) hy

/-- More digits of the second cut off nothing else. -/
theorem truncateNanosecond_eq_of_le {nanosecond : Int} {p q : Nat} (h : p ≤ q)
    (hp : truncateNanosecond nanosecond p = nanosecond) :
    truncateNanosecond nanosecond q = nanosecond := by
  have hunit : (10 : Int) ^ (9 - min q 6) ≠ 0 := by positivity
  have hsplit : (10 : Int) ^ (9 - min p 6) =
      10 ^ (min q 6 - min p 6) * 10 ^ (9 - min q 6) := by
    rw [← pow_add]
    congr 1
    omega
  have hmultiple : nanosecond = nanosecond / 10 ^ (9 - min p 6) * 10 ^ (min q 6 - min p 6) *
      10 ^ (9 - min q 6) := by
    rw [mul_assoc, ← hsplit]
    exact hp.symm
  rw [truncateNanosecond, hmultiple, Int.mul_ediv_cancel _ hunit]

theorem truncate_eq_of_le {x : DateTime} {p q : Nat} (h : p ≤ q) (hp : x.truncate p = x) :
    x.truncate q = x := by
  have hnanosecond := congrArg DateTime.nanosecond hp
  rw [DateTime.truncate, truncateNanosecond_eq_of_le h hnanosecond]

theorem timeOfDay_eq_of_le {x : DateTime} {p q : Nat} (h : p ≤ q) (hp : x.timeOfDay p = x) :
    x.timeOfDay q = x := by
  have hnanosecond := congrArg DateTime.nanosecond hp
  conv_rhs => rw [← hp]
  simp only [DateTime.timeOfDay, DateTime.truncate]
  rw [truncateNanosecond_eq_of_le h hnanosecond]
  exact congrArg (fun n => { x with nanosecond := n, year := 1970, month := 1, day := 1 })
    hnanosecond.symm

/-- A DATE is kept. -/
theorem converts_date (hv : v.isNull = false) (htyp : v.typ.typ = .date)
    (hsize : v.typ.size = 0 ∧ v.typ.scale = 0) : Converts tz v { typ := .date } := by
  obtain ⟨x, hx, hxtyp⟩ := exists_time hv (by rw [htyp]; rfl)
  have hnot : x.typ.typ.hasTimeZone = false := by rw [hxtyp, htyp]; rfl
  refine ⟨v, ?_, htyp, ?_⟩
  · rw [convertToCombinedType_eq, conversionType_of_not_decimal (by rw [htyp]; rfl),
      if_pos ⟨htyp, hsize⟩]
  · exact compare_of_time hv hx hx rfl
      (compareDatetimes_of_fields rfl rfl (by rw [hnot, if_neg (by simp)]))

end

/-! ## Combined types -/

/-- When nothing that a value has is lost: neither is approximate, and a NUMERIC or DECIMAL is
not cut at the largest precision. -/
structure KeepsValues (t1 t2 c : DataType) (v : Value) : Prop where
  exact : c.typ.isApproximate = false
  notCut : c.typ.isExactDecimal → c.size ≠ 0 → combinedDigits t1 t2 ≤ maxNumericPrecision
  -- The size of the type of an empty string is the one of a type without a maximum.
  size : c.typ = .character → c.size ≠ 0
  -- A zero before the point is counted as a digit.
  digit : c.typ.isExactDecimal → (conversionType v c).scale < (conversionType v c).numericPrecision

section

variable {tz : TimeZone} {t1 t2 c : DataType} {v : Value}

theorem converts_combinedString (h1 : t1.typ.isString) (hv : v.Of t1)
    (hkeeps : KeepsValues t1 t2 (combineStrings t1 t2) v) :
    Converts tz v (combineStrings t1 t2) := by
  have htyp : (combineStrings t1 t2).typ = .character ∨
      (combineStrings t1 t2).typ = .varchar := by
    unfold combineStrings
    split_ifs <;> simp
  have hsize := hkeeps.size
  refine converts_string hv.notNull (by rw [hv.typ, h1]) ?_ ?_
  · obtain htyp | htyp := htyp <;> rw [htyp] <;> rfl
  · rw [size_combineStrings] at hsize ⊢
    obtain ⟨hvarchar, hzero⟩ | hle := hv.string h1
    · left
      have hnot : (combineStrings t1 t2).typ ≠ .character := by
        intro habsurd
        simp [typ_combineStrings, hvarchar] at habsurd
      exact ⟨htyp.resolve_left hnot, if_pos (.inl hzero)⟩
    · by_cases hunlimited : t1.size = 0 ∨ t2.size = 0
      · rw [if_pos hunlimited] at hsize ⊢
        left
        exact ⟨htyp.resolve_left (fun hchar => hsize hchar rfl), rfl⟩
      · right
        rw [if_neg hunlimited]
        exact hle.trans (le_max_left _ _)

theorem Value.Of.isExact (hv : v.Of t1) (h1 : t1.typ.isExact) : v.IsExact := by
  refine ⟨hv.notNull, ?_⟩
  rw [hv.typ]
  simpa [SqlType.isExact] using h1

/-- A NUMERIC or DECIMAL without a limit keeps the digits of a value. -/
theorem converts_unlimited {t : DataType} (ht : t.isUnlimited) (hscale : t.scale = 0)
    (h1 : t1.typ.isExact) (hv : v.Of t1)
    (hdigit : (conversionType v t).scale < (conversionType v t).numericPrecision) :
    Converts tz v t := by
  have hexact := hv.isExact h1
  obtain ⟨htyp, hsize⟩ : t.typ.isExactDecimal = true ∧ t.size = 0 := by
    simpa [DataType.isUnlimited] using ht
  by_cases hdecimal : v.typ.typ.isExactDecimal
  · have htarget : conversionType v t =
        { typ := t.typ, size := v.typ.size, scale := v.typ.scale } := by
      simp [conversionType, htyp, hsize, hdecimal]
    obtain ⟨hsmall, hfraction⟩ := hv.digits (hv.typ ▸ hdecimal)
    have hlimit := (Value.numericValue_fits hv.notNull hdecimal).scale.2
    rw [htarget] at hdigit
    exact converts_decimal hexact htyp (by rwa [htarget]) (by rwa [htarget])
      (by rwa [htarget]) (by rwa [htarget])
  · have hint := hexact.typ.resolve_right hdecimal
    have htarget : conversionType v t = { typ := t.typ } := by
      rw [conversionType_of_not_decimal (by simpa using hdecimal), hsize, hscale]
    have hfraction : truncateAt 0 v.exactValue = v.exactValue := by
      rw [exactValue_of_isInteger hint, truncateAt_intCast]
    rw [htarget] at hdigit
    exact converts_decimal hexact htyp (by rw [htarget]; exact Nat.zero_le _)
      (by rwa [htarget]) (by rw [htarget]; exact abs_exactValue_lt hexact)
      (by rwa [htarget])

/-- The digits before and after the point of a type are enough for its values. -/
theorem Value.Of.digits_le (hv : v.Of t1) (h1 : t1.typ.isExact)
    (hlimit : t1.isUnlimited = false) {digits scale : Nat} (hdigits : t1.integerDigits ≤ digits)
    (hscale : t1.scale ≤ scale) :
    |v.exactValue| < 10 ^ digits ∧ truncateAt scale v.exactValue = v.exactValue := by
  have hexact := hv.isExact h1
  by_cases hdecimal : t1.typ.isExactDecimal
  · have hsize : t1.size ≠ 0 := by simpa [DataType.isUnlimited, hdecimal] using hlimit
    obtain ⟨hvsize, hvscale⟩ := hv.precision hdecimal hsize
    obtain ⟨hsmall, hfraction⟩ := hv.digits hdecimal
    rw [integerDigits_of_decimal hdecimal] at hdigits
    rw [DataType.numericPrecision, hvsize, if_neg hsize, hvscale] at hsmall
    rw [hvscale] at hfraction
    exact ⟨lt_of_lt_of_le hsmall (pow_le_pow_right₀ (by norm_num) (by omega)),
      truncateAt_eq_of_le hscale hfraction⟩
  · have hint : v.typ.typ.isInteger :=
      hexact.typ.resolve_right (by rw [hv.typ]; exact hdecimal)
    have hdigits' : v.typ.integerDigits = t1.integerDigits := by
      rw [hv.typ] at hint
      unfold DataType.integerDigits
      rw [hv.typ]
      revert hint
      cases t1.typ <;> simp [SqlType.isInteger]
    rw [exactValue_of_isInteger hint]
    refine ⟨lt_of_lt_of_le (abs_intValue_lt hv.notNull hint) ?_, truncateAt_intCast _ _⟩
    exact pow_le_pow_right₀ (by norm_num) (by omega)

theorem converts_combinedDecimal (h1 : t1.typ.isExact) (hv : v.Of t1)
    (hdecimal : t1.typ.isExactDecimal ∨ t2.typ.isExactDecimal)
    (hkeeps : KeepsValues t1 t2 (combineDecimals t1 t2) v) :
    Converts tz v (combineDecimals t1 t2) := by
  have hjoin := exactJoin_combineDecimals h1 hdecimal
  have htyp := hjoin.isExactDecimal.mpr hdecimal
  have hdigit := hkeeps.digit htyp
  by_cases hunl : (combineDecimals t1 t2).isUnlimited
  · have hscale : (combineDecimals t1 t2).scale = 0 := by
      rw [hjoin.isUnlimited] at hunl
      simp [combineDecimals, hunl]
    exact converts_unlimited hunl hscale h1 hv hdigit
  · rw [Bool.not_eq_true] at hunl
    have hsize : (combineDecimals t1 t2).size ≠ 0 := by
      simpa [DataType.isUnlimited, htyp] using hunl
    have htarget : conversionType v (combineDecimals t1 t2) =
        { combineDecimals t1 t2 with notNull := false } := by
      simp [conversionType, hsize]
    have hcut := hkeeps.notCut htyp hsize
    have hdigits := hjoin.digits hunl
    have hscale := hjoin.scale hunl
    have hlimit : t1.isUnlimited = false := by
      rw [← Bool.not_eq_true] at hunl ⊢
      rw [hjoin.isUnlimited, not_or] at hunl
      exact hunl.1
    have hprecision : (conversionType v (combineDecimals t1 t2)).numericPrecision =
        (combineDecimals t1 t2).size := by
      rw [htarget, DataType.numericPrecision, if_neg hsize]
    have hsizes : ((combineDecimals t1 t2).size : Int) = combinedDigits t1 t2 := by
      rw [combinedDigits] at hcut ⊢
      rw [integerDigits_of_decimal htyp] at hdigits
      omega
    have hinteger : t1.integerDigits ≤
        ((combineDecimals t1 t2).size - (combineDecimals t1 t2).scale : Nat) := by
      have hle := le_max_left t1.integerDigits t2.integerDigits
      rw [combinedDigits, ← hscale] at hsizes
      omega
    have hlarge : (combineDecimals t1 t2).size ≤ maxNumericPrecision := by omega
    have hfractional : t1.scale ≤ (combineDecimals t1 t2).scale := by
      rw [hscale]
      exact le_max_left _ _
    obtain ⟨hsmall, hfraction⟩ := hv.digits_le h1 hlimit hinteger hfractional
    rw [hprecision] at hdigit
    refine converts_decimal (hv.isExact h1) htyp ?_ ?_ ?_ ?_
    · rw [htarget] at hdigit ⊢
      exact hdigit.le.trans hlarge
    · rw [hprecision]
      exact hdigit
    · rw [hprecision, htarget]
      exact hsmall
    · rw [htarget]
      exact hfraction

theorem converts_combinedDatetime {withTimeZone withoutTimeZone : SqlType}
    (hcategory : withTimeZone.category = t1.typ.category)
    (hcategory' : withoutTimeZone.category = t1.typ.category)
    (hwith : withTimeZone.hasTimeZone)
    (ht1 : t1.typ.category = .time ∨ t1.typ.category = .timestamp)
    (hv : v.Of t1) : Converts tz v (combineDatetimes withTimeZone withoutTimeZone t1 t2) := by
  have htyp : (combineDatetimes withTimeZone withoutTimeZone t1 t2).typ.category =
      t1.typ.category := by
    unfold combineDatetimes
    split_ifs
    · exact hcategory
    · exact hcategory'
  have hsize : t1.size ≤ (combineDatetimes withTimeZone withoutTimeZone t1 t2).size :=
    le_max_left t1.size t2.size
  obtain ⟨x, hx, hxtyp⟩ := Value.exists_time hv.notNull (by
    rw [hv.typ]
    revert ht1
    cases t1.typ <;> decide)
  have hzone : x.typ.typ.hasTimeZone →
      (combineDatetimes withTimeZone withoutTimeZone t1 t2).typ.hasTimeZone := by
    intro hzone
    rw [hxtyp, hv.typ] at hzone
    simp [combineDatetimes, hzone, hwith]
  refine converts_datetime hv.notNull hx (by rw [hv.typ, htyp]) hzone ?_
  rw [htyp]
  obtain htime | htimestamp := ht1
  · exact .inl ⟨htime, timeOfDay_eq_of_le hsize (hv.time x hx htime)⟩
  · obtain ⟨htruncate, hyear⟩ := hv.timestamp x hx htimestamp
    exact .inr ⟨htimestamp, truncate_eq_of_le hsize htruncate, hyear⟩

/-- A value of either type is converted to a value that is equal to it. -/
theorem converts_combined (h : combineTypes t1 t2 = some c) (hv : v.Of t1)
    (hkeeps : KeepsValues t1 t2 c v) : Converts tz v c := by
  have heq : t1.typ.category = t2.typ.category := by
    by_contra hne
    rw [combineTypes_of_ne hne] at h
    cases h
  cases h2 : t2.typ.category <;> rw [h2] at heq
  case string =>
    rw [combineTypes_string heq h2] at h
    cases h
    exact converts_combinedString (SqlType.isString_iff_category _ |>.mpr heq) hv hkeeps
  case number =>
    obtain ⟨happrox, heq'⟩ | ⟨hint1, hint2, heq'⟩ | ⟨hexact1, -, hdecimal, heq'⟩ :=
      combineTypes_number heq h2 <;> rw [h] at heq' <;> cases heq'
    · have hexact := hkeeps.exact
      unfold combineApproximates at hexact
      split_ifs at hexact <;> cases hexact
    · have hexact := hv.isExact (by simp [SqlType.isExact, hint1])
      refine converts_integer hexact (hv.typ ▸ hint1) ?_ ?_
      · simp only
        split_ifs
        · exact hint1
        · exact hint2
      · rw [hv.typ]
        revert hint1 hint2
        cases t1.typ <;> cases t2.typ <;>
          simp [SqlType.isInteger, SqlType.supertype, SqlType.intBits]
    · exact converts_combinedDecimal hexact1 hv hdecimal hkeeps
  case boolean =>
    rw [combineTypes_boolean heq h2] at h
    cases h
    exact converts_boolean hv.notNull (by rw [hv.typ, SqlType.eq_boolean_iff, heq]) rfl
  case date =>
    rw [combineTypes_date heq h2] at h
    cases h
    have hdate : t1.typ = .date := (SqlType.eq_date_iff _).mpr heq
    exact converts_date hv.notNull (hv.typ.trans hdate) (hv.date hdate)
  case time =>
    rw [combineTypes_time heq h2] at h
    cases h
    exact converts_combinedDatetime heq.symm heq.symm rfl (.inl heq) hv
  case timestamp =>
    rw [combineTypes_timestamp heq h2] at h
    cases h
    exact converts_combinedDatetime heq.symm heq.symm rfl (.inr heq) hv

theorem KeepsValues.swap (h : KeepsValues t1 t2 c v) : KeepsValues t2 t1 c v := by
  refine ⟨h.exact, ?_, h.size, h.digit⟩
  rw [combinedDigits, max_comm t2.integerDigits, max_comm t2.scale]
  exact h.notCut

end

/-- Combining types does not depend on their order, and keeps the values. -/
theorem combineTypes_laws {t1 t2 t3 : DataType} (h1 : t1.OfExpression) (h2 : t2.OfExpression)
    (h3 : t3.OfExpression) :
    combineTypes t1 t2 = combineTypes t2 t1 ∧
      (combineTypes t1 t2).bind (combineTypes · t3) =
        (combineTypes t2 t3).bind (combineTypes t1) ∧
      combineTypes t1 t1 = some t1.settled ∧
      (∀ ts us : List DataType, ts.Perm us → (∀ t ∈ ts, t.OfExpression) →
        combineAll ts = combineAll us) ∧
      ∀ (tz : TimeZone) (v : Value) (c : DataType), combineTypes t1 t2 = some c →
        v.Of t1 ∨ v.Of t2 → KeepsValues t1 t2 c v → Converts tz v c := by
  refine ⟨combineTypes_comm t1 t2, combineTypes_assoc h1 h2 h3, combineTypes_self h1,
    fun ts us => combineAll_perm, fun tz v c hc hv hkeeps => ?_⟩
  obtain hv | hv := hv
  · exact converts_combined hc hv hkeeps
  · rw [combineTypes_comm] at hc
    exact converts_combined hc hv hkeeps.swap

/-- `COALESCE(1234.567, CAST(1 AS INTEGER))` -/
theorem combineTypes_laws_amount :
    combineTypes { typ := .numeric, size := 7, scale := 3 } { typ := .integer } =
        some { typ := .numeric, size := 13, scale := 3 } ∧
      Converts noTimeZone amount { typ := .numeric, size := 13, scale := 3 } := by
  have hc : combineTypes { typ := .numeric, size := 7, scale := 3 } { typ := .integer } =
      some { typ := .numeric, size := 13, scale := 3 } := by decide
  have hvalue : amount.exactValue = 1234567 / 10 ^ 3 := by
    rw [Value.exactValue_of_decimal rfl]
    norm_num [amount, numericValueOf, Value.numericValue, Numeric.value]
  have hof : amount.Of { typ := .numeric, size := 7, scale := 3 } := by
    have hfraction := truncateAt_intCast_div 3 1234567
    rw [Int.cast_ofNat] at hfraction
    refine ⟨rfl, rfl, by decide, fun _ _ => ⟨rfl, rfl⟩, fun _ => ⟨?_, ?_⟩, by decide, by decide,
      by decide⟩
    · rw [hvalue]
      norm_num [amount, numericValueOf, DataType.numericPrecision]
    · rw [hvalue]
      exact hfraction
  obtain ⟨-, -, -, -, hconverts⟩ :=
    @combineTypes_laws { typ := .numeric, size := 7, scale := 3 } { typ := .integer }
      { typ := .integer } ⟨by decide, by decide⟩ ⟨by decide, by decide⟩ ⟨by decide, by decide⟩
  exact ⟨hc, hconverts noTimeZone amount _ hc (.inl hof)
    ⟨by decide, by decide, by decide, by decide⟩⟩

/-- `FLOAT(20)`, which is a DOUBLE PRECISION. -/
def float20 : DataType := { typ := .doublePrecision, size := 20 }

theorem not_combineTypes_self_float :
    parseTypeWithPrecision .doublePrecision 20 0 = .ok float20 ∧ checkDataType float20 = .ok () ∧
      ¬∀ t : DataType, t.OfExpression →
        (combineTypes t t).map (fun c => (c.typ, c.size, c.scale)) =
          some (t.typ, t.size, t.scale) := by
  refine ⟨rfl, rfl, fun hself => ?_⟩
  have hfloat := hself float20 ⟨by decide, by decide⟩
  revert hfloat
  decide

end Vsql
