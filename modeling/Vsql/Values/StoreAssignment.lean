import Vsql.Values.Key

/-!
# Store assignment

`cast` converts a value to the type of a column.  Only the conversions between
types that can be compared are here: keys are compared, and the other
conversions are never reached from them.  `exactCast` also requires that the
column holds the value exactly.
-/

namespace Vsql

open Foundation

/-! ## Numbers -/

instance (t : DataType) (x : Numeric) : Decidable (x.Fits t) :=
  decidable_of_iff
    (t.typ.isExactDecimal ∧ (x.typ.scale = t.scale ∧ t.scale ≤ maxNumericPrecision) ∧
      (0 < x.denominator ∧ x.denominator < 10 ^ (t.scale + 1)) ∧
      (x.numerator.natAbs : Int) < 10 ^ maxNumericPrecision * x.denominator)
    ⟨fun ⟨h1, h2, h3, h4⟩ => ⟨h1, h2, h3, h4⟩, fun ⟨h1, h2, h3, h4⟩ => ⟨h1, h2, h3, h4⟩⟩

instance (t : DataType) (c : Content) : Decidable (c.Fits t) := by
  cases c <;> unfold Content.Fits <;> infer_instance

/-- A value of the type, which must be able to hold the content. -/
def Value.ofContent (t : DataType) (c : Content) : Except Failure Value :=
  if h : c.Fits t then .ok ⟨t, some c, by simpa using h⟩ else .error sqlstate22003

/-- The decimals with `digits` significant digits below and above `n / d`, as a
number and a power of ten. -/
def decimalsAround (n d digits : Nat) : (Nat × Int) × (Nat × Int) :=
  let first : Int :=
    if d ≤ n then Nat.log 10 (n / d) else -(Nat.clog 10 ((d + n - 1) / n) : Int)
  let exponent := first - (digits - 1)
  let floor := if exponent ≤ 0 then n * 10 ^ (-exponent).toNat / d
    else n / (d * 10 ^ exponent.toNat)
  ((floor, exponent), (floor + 1, exponent))

/-- The fraction of a number and a power of ten. -/
def ofDecimal (x : Nat × Int) : Nat × Nat :=
  if x.2 ≤ 0 then (x.1, 10 ^ (-x.2).toNat) else (x.1 * 10 ^ x.2.toNat, 1)

/-- The shortest decimal that is read as the magnitude, the nearest one of them. -/
def shortestDecimal (m : Nat) : Nat → Nat → Nat × Nat
  | 0, _ => (0, 1)
  | fuel + 1, digits =>
      let n := binary64.units m
      let d := 2 ^ binary64.scale
      let (below, above) := decimalsAround n d digits
      let low := ofDecimal below
      let high := ofDecimal above
      let lowReads := binary64.roundMagnitude low.1 low.2 == m
      let highReads := binary64.roundMagnitude high.1 high.2 == m
      -- Twice the number is compared with the sum of the two.
      let nearer : Bool := decide (2 * n * low.2 * high.2 <
        (low.1 * high.2 + high.1 * low.2) * d)
      if lowReads && (!highReads || nearer) then low
      else if highReads then high
      else shortestDecimal m fuel (digits + 1)

/-- `new_numeric_from_f64`: the value of the shortest decimal that is `x`. -/
def Numeric.ofF64 (x : F64) : Numeric :=
  if x.isNaN || x.isInfinite then Numeric.ofInt 0
  else
    let (n, d) := shortestDecimal x.magnitude 17 1
    let scale := Nat.log 10 d
    ⟨{ typ := .numeric, size := Nat.log 10 n + 1, scale := scale },
      if x.negative then -n else n, d⟩

def Value.asNumeric (v : Value) : Numeric :=
  if v.typ.typ.isApproximate then Numeric.ofF64 v.f64Value else v.asExactNumeric

def isOutOfRange (x : Numeric) (typ : SqlType) : Bool :=
  let max : Int := 2 ^ (typ.intBits - 1)
  decide (x.numerator < -max * x.denominator) ||
    decide ((max - 1) * x.denominator < x.numerator)

/-- The digits before the point of a number, as it is printed. -/
def integerDigits (x : Numeric) : Nat :=
  let scaled := (x.numerator.natAbs * 10 ^ x.typ.scale) / x.denominator.toNat
  let length := (OrderedCode.decimal scaled).length
  if x.typ.scale + 1 ≤ length then length - x.typ.scale else 1

def castNumeric (v : Value) (t : DataType) : Except Failure Value :=
  match t.typ with
  | .smallint | .integer | .bigint =>
      let x := v.asNumeric
      if isOutOfRange x t.typ then .error sqlstate22003
      else Value.ofContent { typ := t.typ } (.int x.integer)
  | .real =>
      let x := v.asF64
      let y := asReal x
      if (y.isInfinite && !y.isNaN) || (!x.isZero && !x.isNaN && y.isZero) then
        .error sqlstate22003
      else Value.ofContent { typ := .real } (.f64 y)
  | .doublePrecision =>
      let x := v.asF64
      if x.isInfinite then .error sqlstate22003
      else Value.ofContent { typ := .doublePrecision } (.f64 x)
  | .numeric | .decimal =>
      let x := v.asNumeric
      if t.numericPrecision - t.scale < integerDigits x then .error sqlstate22003
      else
        Value.ofContent { t with notNull := t.notNull && t.typ == .numeric }
          (.numeric (Numeric.normalizeDenominator ⟨t, x.numerator, x.denominator⟩ t))
  | _ => .error (.error .s42846 s!"cannot coerce {v.typ.str} to {t.str}")

/-! ## Strings -/

/-- The characters of a string in UTF-8. -/
def runes (s : Bytes) : Nat := (s.filter fun b => b.toNat / 64 != 2).length

def isSpaces (s : Bytes) : Bool := s.all (· == 32)

def castString (v : Value) (t : DataType) : Except Failure Value :=
  let s := v.stringValue
  let m := runes s
  let l := t.size
  -- The characters after the first `l` are as many bytes when they are spaces.
  let extra := s.drop (s.length - (m - l))
  let short := s.take (s.length - (m - l))
  let tooLong : Except Failure Value :=
    .error (.error .s22001 s!"string data right truncation for {t.str}")
  match t.typ with
  | .character =>
      if l = m then Value.ofContent { typ := .character, size := runes s } (.string s)
      else if l < m then
        if isSpaces extra then
          Value.ofContent { typ := .character, size := runes short } (.string short)
        else tooLong
      else
        let padded := s ++ List.replicate (l - m) 32
        Value.ofContent { typ := .character, size := runes padded } (.string padded)
  | _ =>
      if l = 0 ∨ m ≤ l then
        Value.ofContent { typ := .varchar, size := runes s } (.string s)
      else if isSpaces extra then
        Value.ofContent { typ := .varchar, size := runes short } (.string short)
      else tooLong

/-! ## Datetimes -/

/-- The fractional seconds rounded down to the precision. -/
def truncateNanosecond (nanosecond : Int) (precision : Nat) : Int :=
  let unit : Int := 10 ^ (9 - min precision 6)
  nanosecond / unit * unit

theorem truncateNanosecond_bounds {nanosecond : Int} (precision : Nat)
    (h : 0 ≤ nanosecond ∧ nanosecond < 1000000000) :
    0 ≤ truncateNanosecond nanosecond precision ∧
      truncateNanosecond nanosecond precision < 1000000000 := by
  have hunit : (0 : Int) < 10 ^ (9 - min precision 6) := by positivity
  have hle := Int.ediv_mul_le nanosecond hunit.ne'
  have hnonneg := Int.mul_nonneg (Int.ediv_nonneg h.1 hunit.le) hunit.le
  simp only [truncateNanosecond]
  omega

/-- The datetime that is read from the text of a TIMESTAMP. -/
def DateTime.truncate (t : DateTime) (precision : Nat) : DateTime :=
  { t with nanosecond := truncateNanosecond t.nanosecond precision }

theorem DateTime.Valid.truncate {t : DateTime} (h : t.Valid) (precision : Nat) :
    (t.truncate precision).Valid :=
  ⟨h.year, h.month, h.day, h.hour, h.minute, h.second,
    truncateNanosecond_bounds precision h.nanosecond⟩

/-- The datetime that is read from the text of a TIME, which has no date. -/
def DateTime.timeOfDay (t : DateTime) (precision : Nat) : DateTime :=
  { t.truncate precision with year := 1970, month := 1, day := 1 }

theorem DateTime.Valid.timeOfDay {t : DateTime} (h : t.Valid) (precision : Nat) :
    (t.timeOfDay precision).Valid :=
  ⟨by simp [DateTime.timeOfDay], by simp [DateTime.timeOfDay],
    by simp [DateTime.timeOfDay, daysInMonth], h.hour, h.minute, h.second,
    truncateNanosecond_bounds precision h.nanosecond⟩

def noTimeZone : TimeZone := ⟨0, by norm_num⟩

/-- A datetime as a datetime with the same fields, with or without a time zone. -/
def castDatetime (sessionTimeZone : TimeZone) (t : Time) (typ : DataType) :
    Except Failure Value :=
  let timeZone : TimeZone :=
    if typ.typ.hasTimeZone then
      if t.typ.typ.hasTimeZone then t.timeZone else sessionTimeZone
    else noTimeZone
  let newTyp : DataType := { typ := typ.typ, size := typ.size }
  match typ.typ with
  | .timeWithTimeZone | .timeWithoutTimeZone =>
      Value.ofContent newTyp
        (.time ⟨newTyp, timeZone, t.t.timeOfDay typ.size, t.valid.timeOfDay typ.size⟩)
  | .timestampWithTimeZone | .timestampWithoutTimeZone =>
      if t.t.year ≤ 9999 then
        Value.ofContent newTyp
          (.time ⟨newTyp, timeZone, t.t.truncate typ.size, t.valid.truncate typ.size⟩)
      else .error (.error .s42601 "TIMESTAMP is not valid")
  | _ => .error (.error .s42846 s!"cannot coerce {t.typ.str} to {typ.str}")

/-! ## Casts -/

def cast (sessionTimeZone : TimeZone) (v : Value) (t : DataType) : Except Failure Value :=
  if v.isNull then .ok v
  else if t.typ.isString && v.typ.typ.isString then castString v t
  else if t.typ.isNumber && v.typ.typ.isNumber then
    if v.typ = t then .ok v else castNumeric v t
  else if t.typ = .boolean && v.typ.typ = .boolean then .ok v
  else
    match v.timeValue? with
    | some time =>
        if t.typ.isDatetime && t.typ.datetimeFields == v.typ.typ.datetimeFields then
          if v.typ = t then .ok v else castDatetime sessionTimeZone time t
        else .error (.error .s42846 s!"cannot coerce {v.typ.str} to {t.str}")
    | none => .error (.error .s42846 s!"cannot coerce {v.typ.str} to {t.str}")

/-- The value as the type of the column, if the column can hold it exactly. -/
def exactCast (sessionTimeZone : TimeZone) (v : Value) (t : DataType) :
    Except Failure Value := do
  let stored ← cast sessionTimeZone v t
  let cmp ← Value.compare sessionTimeZone stored v
  if cmp = .isEqual then pure stored
  else throw (.error .sXX000 s!"the value is not exactly a {t.str}")

theorem Value.ofContent_eq_ok {t : DataType} {c : Content} {v : Value}
    (h : Value.ofContent t c = .ok v) : v.typ = t ∧ v.v = some c := by
  unfold Value.ofContent at h
  split at h
  · cases h
    exact ⟨rfl, rfl⟩
  · cases h

/-- What a value that was cast to `t` is. -/
structure Value.StoredAs (t : DataType) (w : Value) : Prop where
  notNull : w.isNull = false
  typ : w.typ.typ = t.typ
  scale : t.typ.isExactDecimal → w.typ.scale = t.scale

theorem storedAs_ofContent {t u : DataType} {c : Content} {w : Value}
    (h : Value.ofContent u c = .ok w) (htyp : u.typ = t.typ)
    (hscale : t.typ.isExactDecimal → u.scale = t.scale) : w.StoredAs t := by
  obtain ⟨hw, hc⟩ := Value.ofContent_eq_ok h
  exact ⟨by simp [Value.isNull, hc], by rw [hw, htyp], fun hdec => by rw [hw, hscale hdec]⟩

theorem storedAs_self {w : Value} (h : w.isNull = false) : w.StoredAs w.typ :=
  ⟨h, rfl, fun _ => rfl⟩

theorem storedAs_castNumeric {v w : Value} {t : DataType}
    (h : castNumeric v t = .ok w) : w.StoredAs t := by
  unfold castNumeric at h
  split at h
  case h_1 htyp | h_2 htyp | h_3 htyp | h_4 htyp | h_5 htyp =>
    simp only at h
    split at h
    · cases h
    · exact storedAs_ofContent h (by simp [htyp])
        (by simp [htyp, SqlType.isExactDecimal])
  case h_6 htyp | h_7 htyp =>
    simp only at h
    split at h
    · cases h
    · exact storedAs_ofContent h rfl (fun _ => rfl)
  case h_8 => cases h

theorem storedAs_castString {v w : Value} {t : DataType} (ht : t.typ.isString)
    (h : castString v t = .ok w) : w.StoredAs t := by
  have hdec : ¬t.typ.isExactDecimal := by
    revert ht
    cases t.typ <;> simp [SqlType.isString, SqlType.isExactDecimal]
  have hstored : ∀ n s, Value.ofContent { typ := t.typ, size := n } (.string s) = .ok w →
      w.StoredAs t := fun n s hw => storedAs_ofContent hw rfl (fun hd => absurd hd hdec)
  unfold castString at h
  simp only at h
  split at h
  case h_1 htyp =>
    rw [htyp] at hstored
    split at h
    · exact hstored _ _ h
    · split at h
      · split at h
        · exact hstored _ _ h
        · cases h
      · exact hstored _ _ h
  case h_2 hchar =>
    have htyp : t.typ = .varchar := by
      revert ht hchar
      cases t.typ <;> simp [SqlType.isString]
    rw [htyp] at hstored
    split at h
    · exact hstored _ _ h
    · split at h
      · exact hstored _ _ h
      · cases h

theorem storedAs_castDatetime {tz : TimeZone} {u : Time} {w : Value} {t : DataType}
    (h : castDatetime tz u t = .ok w) : w.StoredAs t := by
  unfold castDatetime at h
  simp only at h
  split at h
  case h_1 htyp | h_2 htyp =>
    exact storedAs_ofContent h rfl (by simp [htyp, SqlType.isExactDecimal])
  case h_3 htyp | h_4 htyp =>
    split at h
    · exact storedAs_ofContent h rfl (by simp [htyp, SqlType.isExactDecimal])
    · cases h
  case h_5 => cases h

/-- A value that was cast has the type of the column. -/
theorem storedAs_cast {tz : TimeZone} {v w : Value} {t : DataType}
    (hv : v.isNull = false) (h : cast tz v t = .ok w) : w.StoredAs t := by
  unfold cast at h
  rw [hv, if_neg (by simp)] at h
  split at h
  · next hstr => exact storedAs_castString (by simp_all) h
  · split at h
    · split at h
      · next heq =>
          cases h
          exact heq ▸ storedAs_self hv
      · exact storedAs_castNumeric h
    · split at h
      · next hbool =>
          simp only [Bool.and_eq_true, decide_eq_true_eq] at hbool
          cases h
          exact ⟨hv, by rw [hbool.1, hbool.2],
            by simp [hbool.1, SqlType.isExactDecimal]⟩
      · split at h
        · split at h
          · split at h
            · next heq =>
                cases h
                exact heq ▸ storedAs_self hv
            · exact storedAs_castDatetime h
          · cases h
        · cases h

theorem exactCast_eq_ok {tz : TimeZone} {v w : Value} {t : DataType}
    (h : exactCast tz v t = .ok w) :
    cast tz v t = .ok w ∧ Value.compare tz w v = .ok .isEqual := by
  unfold exactCast at h
  cases hcast : cast tz v t with
  | error e => simp [hcast, bind, Except.bind] at h
  | ok stored =>
      cases hcmp : Value.compare tz stored v with
      | error e => simp [hcast, hcmp, bind, Except.bind] at h
      | ok cmp =>
          simp only [hcast, hcmp, bind, Except.bind] at h
          split at h
          · next heq =>
              cases h
              exact ⟨rfl, by rw [hcmp, heq]⟩
          · cases h

/-! ## REAL -/

end Vsql
