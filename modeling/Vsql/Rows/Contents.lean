import Mathlib.Data.Nat.Size
import Vsql.Foundation.Reader
import Vsql.Values.Calendar
import Vsql.Values.Key
import Vsql.Values.StoreAssignment

/-!
# Values in rows

How the content of a value is written in a row and read back.  Nothing says where the
content ends, so its length comes from the type of the column or is written before it.
-/

namespace Vsql.Rows

open Foundation
open Foundation.Reader

/-! ## Numbers in bytes -/

abbrev ByteReader (α : Type) := Reader Failure UInt8 α

def pastEnd : Failure := .panic "array slice out of range"

/-- The `width` lowest bytes of an integer. -/
def writeInt (width : Nat) (x : Int) : Bytes := bigEndian width (x % 256 ^ width).toNat

def signed (width n : Nat) : Int :=
  if 2 * n < 256 ^ width then n else n - (256 ^ width : Nat)

def readU8s (n : Nat) : ByteReader Bytes := take pastEnd n

def readNat (width : Nat) : ByteReader Nat := do
  let data ← readU8s width
  pure (ofBigEndian data)

def readInt (width : Nat) : ByteReader Int := do
  let n ← readNat width
  pure (signed width n)

def readU8 : ByteReader UInt8 := do
  let data ← readU8s 1
  pure (data.headD 0)

def readBool : ByteReader Bool := do
  let b ← readU8
  pure (b != 0)

def writeBool (x : Bool) : Bytes := [if x then 1 else 0]

/-- A slice of a negative length is out of range. -/
def readLength (n : Int) : ByteReader Bytes :=
  if n < 0 then throw pastEnd else readU8s n.toNat

theorem reads_readU8s {data : Bytes} {n : Nat} (h : data.length = n) :
    Reads (readU8s n) data data :=
  reads_take_of_length pastEnd h

theorem reads_readNat {width n : Nat} (h : n < 256 ^ width) :
    Reads (readNat width) (bigEndian width n) n := by
  have hread : Reads (readU8s width) (bigEndian width n) (bigEndian width n) :=
    reads_readU8s (length_bigEndian width n)
  have hnat := hread.bind_pure (f := ofBigEndian)
  rwa [ofBigEndian_bigEndian h] at hnat

theorem signed_emod {width : Nat} {x : Int} (hlow : -(256 ^ width : Nat) ≤ 2 * x)
    (hhigh : 2 * x < (256 ^ width : Nat)) :
    signed width (x % 256 ^ width).toNat = x := by
  have hcast : ((256 : Int) ^ width) = ((256 ^ width : Nat) : Int) := by simp
  unfold signed
  rw [hcast]
  generalize 256 ^ width = m at *
  by_cases hx : 0 ≤ x
  · rw [Int.emod_eq_of_lt hx (by omega), if_pos (by omega)]
    omega
  · have hmod : x % (m : Int) = x + m := by
      rw [← Int.add_emod_right]
      exact Int.emod_eq_of_lt (by omega) (by omega)
    rw [hmod, if_neg (by omega)]
    omega

theorem reads_readInt {width : Nat} {x : Int} (hlow : -(256 ^ width : Nat) ≤ 2 * x)
    (hhigh : 2 * x < (256 ^ width : Nat)) : Reads (readInt width) (writeInt width x) x := by
  have hpos : (0 : Int) < 256 ^ width := by positivity
  have hlt : (x % 256 ^ width).toNat < 256 ^ width := by
    have h := Int.emod_lt_of_pos x hpos
    have hnonneg := Int.emod_nonneg x hpos.ne'
    have hcast : ((256 : Int) ^ width) = ((256 ^ width : Nat) : Int) := by simp
    omega
  have hread := (reads_readNat hlt).bind_pure (f := signed width)
  rwa [signed_emod hlow hhigh] at hread

theorem reads_readU8 (b : UInt8) : Reads readU8 [b] b := by
  have hread : Reads (readU8s 1) [b] [b] := reads_readU8s rfl
  exact Reads.bind_pure (f := fun data : Bytes => data.headD 0) hread

theorem reads_readBool (x : Bool) : Reads readBool (writeBool x) x := by
  have h := (reads_readU8 (if x then 1 else 0)).bind_pure (f := (· != 0))
  cases x <;> exact h

theorem reads_readLength (data : Bytes) : Reads (readLength data.length) data data := by
  have hnot : ¬(data.length : Int) < 0 := by omega
  rw [readLength, if_neg hnot]
  exact reads_readU8s rfl

/-! ## Datetimes -/

def newTimeFromComponents (typ : DataType) (t : DateTime) (timeZone : TimeZone) :
    Except Failure Time :=
  if h : (newLenientTime t).Valid then .ok ⟨typ, timeZone, newLenientTime t, h⟩
  else .error (.panic "year out of range")

def timeBytes (t : Time) : Bytes :=
  writeInt 8 t.i64 ++ if t.typ.typ.hasTimeZone then writeInt 2 t.timeZone.1 else []

def readTimeZone : ByteReader TimeZone := do
  let z ← readInt 2
  if h : -2 ^ 15 ≤ z ∧ z < 2 ^ 15 then pure ⟨z, h⟩ else throw pastEnd

theorem zero_timeZone : -2 ^ 15 ≤ (0 : Int) ∧ (0 : Int) < 2 ^ 15 := by decide

def readTimeZoneOf (typ : SqlType) : ByteReader TimeZone :=
  if typ.hasTimeZone then readTimeZone else pure ⟨0, zero_timeZone⟩

def newTimeFromBytes (typ : DataType) : ByteReader Time := do
  let ts ← readInt 8
  let timeZone ← readTimeZoneOf typ.typ
  StateT.lift (newTimeFromComponents typ (componentsOfI64 ts) timeZone)

def timeLength (typ : SqlType) : Nat := if typ.hasTimeZone then 10 else 8

/-- The time as it is stored, in microseconds. -/
def storedTime (typ : DataType) (t : Time) : Time where
  typ := typ
  timeZone := if typ.typ.hasTimeZone then t.timeZone else ⟨0, zero_timeZone⟩
  t := { t.t with nanosecond := t.t.nanosecond / 1000 * 1000 }
  valid := by
    obtain ⟨hyear, hmonth, hday, hhour, hminute, hsecond, hnano⟩ := t.valid
    exact ⟨hyear, hmonth, hday, hhour, hminute, hsecond, by dsimp only; omega⟩

theorem reads_readTimeZone (z : TimeZone) : Reads readTimeZone (writeInt 2 z.1) z := by
  obtain ⟨z, hz⟩ := z
  have hread : Reads (readInt 2) (writeInt 2 z) z := reads_readInt (by omega) (by omega)
  refine hread.bind_nil ?_
  rw [dif_pos hz]
  exact reads_pure _

theorem length_timeBytes (t : Time) : (timeBytes t).length = timeLength t.typ.typ := by
  unfold timeBytes timeLength writeInt
  split <;> simp

theorem reads_newTimeFromBytes {typ : DataType} {t : Time} (h : t.typ.typ = typ.typ) :
    Reads (newTimeFromBytes typ) (timeBytes t) (storedTime typ t) := by
  have hbounds := t.i64_bounds
  have hts : Reads (readInt 8) (writeInt 8 t.i64) t.i64 := reads_readInt (by omega) (by omega)
  have hzone : Reads (readTimeZoneOf typ.typ)
      (if t.typ.typ.hasTimeZone then writeInt 2 t.timeZone.1 else [])
      (storedTime typ t).timeZone := by
    rw [h]
    simp only [storedTime, readTimeZoneOf]
    split
    · exact reads_readTimeZone _
    · exact reads_pure _
  have hcomponents : newTimeFromComponents typ (componentsOfI64 t.i64)
      (storedTime typ t).timeZone = .ok (storedTime typ t) := by
    have hlenient : newLenientTime (componentsOfI64 t.i64) = (storedTime typ t).t :=
      newLenientTime_componentsOfI64 t.valid
    unfold newTimeFromComponents
    rw [dif_pos (by rw [hlenient]; exact (storedTime typ t).valid)]
    simp only [hlenient]
    rfl
  unfold newTimeFromBytes timeBytes
  refine hts.bind ?_
  refine hzone.bind_nil ?_
  exact reads_lift hcomponents

/-! ## Exact numbers -/

/-- The bytes of a magnitude, without leading zeros. -/
def magnitudeBytes (n : Nat) : Bytes := bigEndian ((n.size + 7) / 8) n

def numericIsZero : UInt8 := 2
def numericIsNegative : UInt8 := 4

def numericBytes (n : Numeric) : Bytes :=
  if n.isZero then [numericIsZero]
  else
    let numerator := magnitudeBytes n.numerator.natAbs
    let denominator := magnitudeBytes n.denominator.natAbs
    [if n.isNegative then numericIsNegative else 0] ++
      (writeInt 2 numerator.length ++ numerator ++
        (writeInt 2 denominator.length ++ denominator))

def readMagnitude : ByteReader Nat := do
  let length ← readInt 2
  let data ← readLength length
  pure (ofBigEndian data)

def newNumericFromBytes (typ : DataType) : ByteReader Numeric := do
  let flags ← readU8
  if flags &&& numericIsZero ≠ 0 then pure ⟨typ, 0, 10 ^ typ.scale⟩
  else do
    let numerator ← readMagnitude
    let denominator ← readMagnitude
    pure ⟨typ, if flags &&& numericIsNegative ≠ 0 then -numerator else numerator, denominator⟩

/-- The number as it is read back: any zero has the denominator of the scale. -/
def storedNumeric (typ : DataType) (n : Numeric) : Numeric :=
  if n.isZero then ⟨typ, 0, 10 ^ typ.scale⟩ else ⟨typ, n.numerator, n.denominator⟩

theorem lt_pow_size (n : Nat) : n < 256 ^ ((n.size + 7) / 8) := by
  have hsize : n < 2 ^ n.size := Nat.lt_size_self n
  have hpow : 2 ^ n.size ≤ 2 ^ (8 * ((n.size + 7) / 8)) :=
    Nat.pow_le_pow_right (by omega) (by omega)
  rw [Nat.pow_mul] at hpow
  exact hsize.trans_le hpow

theorem length_magnitudeBytes_le {n k : Nat} (h : n < 10 ^ k) :
    (magnitudeBytes n).length ≤ k := by
  have hpow : 10 ^ k ≤ 2 ^ (4 * k) := by
    rw [Nat.pow_mul]
    exact Nat.pow_le_pow_left (by omega) k
  have hsize : n.size ≤ 4 * k := Nat.size_le.mpr (h.trans_le hpow)
  rw [magnitudeBytes, length_bigEndian]
  omega

theorem reads_readMagnitude {n : Nat} (h : (magnitudeBytes n).length < 2 ^ 15) :
    Reads readMagnitude (writeInt 2 (magnitudeBytes n).length ++ magnitudeBytes n) n := by
  have hlength : Reads (readInt 2) (writeInt 2 (magnitudeBytes n).length)
      (magnitudeBytes n).length := reads_readInt (by omega) (by omega)
  have hdata := (reads_readLength (magnitudeBytes n)).bind_pure (f := ofBigEndian)
  have hback : ofBigEndian (magnitudeBytes n) = n := ofBigEndian_bigEndian (lt_pow_size n)
  rw [hback] at hdata
  exact hlength.bind hdata

/-- The bytes of the numerator and of the denominator can be counted in an `i16`. -/
structure ShortNumeric (n : Numeric) : Prop where
  positive : 0 < n.denominator
  denominator : (magnitudeBytes n.denominator.natAbs).length ≤ maxNumericPrecision + 1
  numerator : (magnitudeBytes n.numerator.natAbs).length ≤ 2 * maxNumericPrecision + 1

theorem shortNumeric_of_fits {t : DataType} {n : Numeric} (h : n.Fits t) : ShortNumeric n := by
  have hcast : (n.denominator.natAbs : Int) = n.denominator := by
    have hpos := h.denominator.1
    omega
  have hscaled : n.denominator.natAbs < 10 ^ (t.scale + 1) := by
    have hlt := h.denominator.2
    rw [← hcast] at hlt
    exact_mod_cast hlt
  have hdenominator : n.denominator.natAbs < 10 ^ (maxNumericPrecision + 1) :=
    hscaled.trans_le (Nat.pow_le_pow_right (by omega) (Nat.add_le_add_right h.scale.2 1))
  have hnumerator : n.numerator.natAbs < 10 ^ (2 * maxNumericPrecision + 1) := by
    have hlt := h.numerator
    rw [← hcast] at hlt
    have hnat : n.numerator.natAbs < 10 ^ maxNumericPrecision * n.denominator.natAbs := by
      exact_mod_cast hlt
    generalize maxNumericPrecision = m at hnat hdenominator ⊢
    rw [Nat.two_mul, Nat.add_assoc, Nat.pow_add]
    exact hnat.trans ((Nat.mul_lt_mul_left (Nat.pow_pos (by omega))).mpr hdenominator)
  exact ⟨h.denominator.1, length_magnitudeBytes_le hdenominator,
    length_magnitudeBytes_le hnumerator⟩

theorem ShortNumeric.length_numericBytes {n : Numeric} (h : ShortNumeric n) :
    (numericBytes n).length < 2 ^ 15 := by
  have hdenominator := h.denominator
  have hnumerator := h.numerator
  simp only [maxNumericPrecision] at hdenominator hnumerator
  unfold numericBytes writeInt
  split
  · simp
  · simp only [List.length_append, List.length_cons, List.length_nil, length_bigEndian]
    omega

theorem reads_newNumericFromBytes_of_lengths (typ : DataType) {n : Numeric}
    (hpos : 0 < n.denominator)
    (hdenominatorLength : (magnitudeBytes n.denominator.natAbs).length < 2 ^ 15)
    (hnumeratorLength : (magnitudeBytes n.numerator.natAbs).length < 2 ^ 15) :
    Reads (newNumericFromBytes typ) (numericBytes n) (storedNumeric typ n) := by
  unfold newNumericFromBytes numericBytes storedNumeric
  split
  · refine (reads_readU8 numericIsZero).bind_nil ?_
    exact reads_pure _
  · have hflags : ∀ negative : Bool,
        (if negative then numericIsNegative else 0) &&& numericIsZero = 0 ∧
          ((if negative then numericIsNegative else 0) &&& numericIsNegative ≠ 0 ↔
            negative) := by
      decide
    obtain ⟨hzero, hnegative⟩ := hflags n.isNegative
    dsimp only
    generalize (if n.isNegative then numericIsNegative else 0) = flags at *
    refine (reads_readU8 flags).bind ?_
    rw [if_neg (by simpa using hzero)]
    have hsigned : (if flags &&& numericIsNegative ≠ 0 then -(n.numerator.natAbs : Int)
        else n.numerator.natAbs) = n.numerator := by
      simp only [hnegative, Numeric.isNegative, decide_eq_true_eq]
      split <;> omega
    have hdenominator : (n.denominator.natAbs : Int) = n.denominator := by omega
    refine (reads_readMagnitude hnumeratorLength).bind ?_
    refine (reads_readMagnitude hdenominatorLength).bind_nil ?_
    rw [hsigned, hdenominator]
    exact reads_pure _

theorem reads_newNumericFromBytes (typ : DataType) {n : Numeric} (h : ShortNumeric n) :
    Reads (newNumericFromBytes typ) (numericBytes n) (storedNumeric typ n) := by
  have hdenominator := h.denominator
  have hnumerator := h.numerator
  simp only [maxNumericPrecision] at hdenominator hnumerator
  exact reads_newNumericFromBytes_of_lengths typ h.positive (by omega) (by omega)

/-! ## Contents -/

def floatFromBits (f : FloatFormat) (n : Nat) : BinaryFloat f :=
  ⟨decide (2 ^ f.bits ≤ n), n % 2 ^ f.bits, Nat.mod_lt _ (Nat.two_pow_pos _)⟩

/-- A value without a content of the type is written as zeros, which are what it has in
memory. -/
def writeContent (typ : SqlType) (v : Value) : Bytes :=
  match typ with
  | .boolean =>
      match v.v with
      | some (.bool x) => [if x then 2 else 1]
      | _ => [0]
  | .bigint => writeInt 8 v.intValue
  | .integer => writeInt 4 v.intValue
  | .smallint => writeInt 2 v.intValue
  | .doublePrecision => bigEndian 8 (f64Bits v.f64Value)
  | .real => bigEndian 4 (f32Bits v.f64Value.convert)
  | .varchar | .character => writeInt 4 v.stringValue.length ++ v.stringValue
  | .date | .timeWithTimeZone | .timeWithoutTimeZone | .timestampWithTimeZone
  | .timestampWithoutTimeZone =>
      match v.timeValue? with
      | some t => timeBytes t
      | none => writeInt 8 0
  | .numeric | .decimal =>
      writeInt 2 (numericBytes v.numericValue).length ++ numericBytes v.numericValue

/-- A BOOLEAN has no NULL indicator, so it may be read as NULL. -/
def readContent (t : DataType) : ByteReader (Option Content) :=
  match t.typ with
  | .boolean => do
      let b ← readU8
      pure (if b = 0 then none else some (.bool (b == 2)))
  | .bigint => (some ∘ .int) <$> readInt 8
  | .integer => (some ∘ .int) <$> readInt 4
  | .smallint => (some ∘ .int) <$> readInt 2
  | .doublePrecision => (fun n => some (.f64 (floatFromBits binary64 n))) <$> readNat 8
  | .real => (fun n => some (.f64 (floatFromBits binary32 n).convert)) <$> readNat 4
  | .varchar | .character => do
      let length ← readInt 4
      let s ← readLength length
      pure (some (.string s))
  | .date | .timeWithTimeZone | .timeWithoutTimeZone | .timestampWithTimeZone
  | .timestampWithoutTimeZone =>
      (some ∘ .time) <$> within pastEnd (timeLength t.typ) (newTimeFromBytes t)
  | .numeric | .decimal => do
      let length ← readInt 2
      let data ← readLength length
      let (n, _) ← StateT.lift ((newNumericFromBytes t).run data)
      pure (some (.numeric n))

/-- A content as it is read back from a column of type `t`. -/
def storedContent (t : DataType) : Content → Content
  | .f64 x => .f64 (if t.typ = .real then asReal x else x)
  | .time x => .time (storedTime t x)
  | .numeric x => .numeric (storedNumeric t x)
  | c => c

theorem floatFromBits_f64Bits (x : F64) : floatFromBits binary64 (f64Bits x) = x := by
  obtain ⟨negative, magnitude, bound⟩ := x
  have hbound : magnitude < 2 ^ 63 := bound
  have hbits : binary64.bits = 63 := rfl
  cases negative <;> simp [floatFromBits, f64Bits, hbits] <;> omega

theorem floatFromBits_f32Bits (x : F32) : floatFromBits binary32 (f32Bits x) = x := by
  obtain ⟨negative, magnitude, bound⟩ := x
  have hbound : magnitude < 2 ^ 31 := bound
  have hbits : binary32.bits = 31 := rfl
  cases negative <;> simp [floatFromBits, f32Bits, hbits] <;> omega

theorem f64Bits_lt (x : F64) : f64Bits x < 256 ^ 8 := by
  have hbound : x.magnitude < 2 ^ 63 := x.bound
  unfold f64Bits
  split <;> omega

theorem f32Bits_lt (x : F32) : f32Bits x < 256 ^ 4 := by
  have hbound : x.magnitude < 2 ^ 31 := x.bound
  unfold f32Bits
  split <;> omega

/-! ## A content is read back -/

section

variable {t : DataType} {v : Value}

theorem reads_int {x : Int} (hv : v.v = some (.int x)) (htyp : v.typ.typ = t.typ) :
    Reads (readContent t) (writeContent t.typ v) (some (.int x)) := by
  obtain ⟨hinteger, hlow, hhigh⟩ := v.fits _ hv
  have hx : v.intValue = x := by simp [Value.intValue, hv]
  rw [htyp] at hinteger hlow hhigh
  unfold readContent writeContent
  rw [hx]
  cases ht : t.typ <;> rw [ht] at hinteger hlow hhigh <;> simp [SqlType.isInteger] at hinteger
  case bigint | integer | smallint =>
    simp only [SqlType.intBits] at hlow hhigh
    exact (reads_readInt (by omega) (by omega)).map (some ∘ Content.int)

theorem reads_bool {x : Bool} (hv : v.v = some (.bool x)) (htyp : v.typ.typ = t.typ) :
    Reads (readContent t) (writeContent t.typ v) (some (.bool x)) := by
  have hboolean : v.typ.typ = .boolean := v.fits _ hv
  rw [htyp] at hboolean
  unfold readContent writeContent
  simp only [hboolean, hv]
  cases x <;> exact (reads_readU8 _).bind_nil (reads_pure _)

theorem reads_f64 {x : F64} (hv : v.v = some (.f64 x)) (htyp : v.typ.typ = t.typ) :
    Reads (readContent t) (writeContent t.typ v) (some (storedContent t (.f64 x))) := by
  have hx : v.f64Value = x := by simp [Value.f64Value, hv]
  have hfits := v.fits _ hv
  simp only [Content.Fits, htyp] at hfits
  unfold readContent writeContent storedContent
  rw [hx]
  obtain ht | ⟨ht, -⟩ := hfits
  · have hread := (reads_readNat (f64Bits_lt x)).map
      fun n => some (Content.f64 (floatFromBits binary64 n))
    rw [floatFromBits_f64Bits] at hread
    simpa [ht] using hread
  · have hread := (reads_readNat (f32Bits_lt x.convert)).map
      fun n => some (Content.f64 (floatFromBits binary32 n).convert)
    rw [floatFromBits_f32Bits] at hread
    simpa [ht, asReal] using hread

theorem reads_string {x : Bytes} (hv : v.v = some (.string x)) (htyp : v.typ.typ = t.typ)
    (hlength : x.length < 2 ^ 31) :
    Reads (readContent t) (writeContent t.typ v) (some (.string x)) := by
  have hx : v.stringValue = x := by simp [Value.stringValue, hv]
  have hstring : t.typ.isString := htyp ▸ v.fits _ hv
  unfold readContent writeContent
  rw [hx]
  cases ht : t.typ <;> rw [ht] at hstring <;> simp [SqlType.isString] at hstring
  case character | varchar =>
    refine Reads.bind (reads_readInt (x := x.length) (by omega) (by omega)) ?_
    refine (reads_readLength x).bind_nil ?_
    exact reads_pure _

theorem reads_time {x : Time} (hv : v.v = some (.time x)) (htyp : v.typ.typ = t.typ) :
    Reads (readContent t) (writeContent t.typ v) (some (storedContent t (.time x))) := by
  have hx : v.timeValue? = some x := by simp [Value.timeValue?, hv]
  obtain ⟨hdatetime, hxtyp⟩ := v.fits _ hv
  rw [htyp] at hdatetime hxtyp
  have hlength : (timeBytes x).length = timeLength t.typ := by rw [length_timeBytes, hxtyp]
  have hread := (reads_newTimeFromBytes hxtyp).within pastEnd hlength
  have hmap := hread.map (some ∘ Content.time)
  unfold readContent writeContent
  rw [hx]
  cases ht : t.typ <;> rw [ht] at hdatetime hmap <;> simp [SqlType.isDatetime] at hdatetime
  all_goals exact hmap

theorem reads_numeric {x : Numeric} (hv : v.v = some (.numeric x)) (htyp : v.typ.typ = t.typ) :
    Reads (readContent t) (writeContent t.typ v) (some (storedContent t (.numeric x))) := by
  have hx : v.numericValue = x := by simp [Value.numericValue, hv]
  have hfits : x.Fits v.typ := v.fits _ hv
  have hexact : t.typ.isExactDecimal := htyp ▸ hfits.typ
  have hshort := shortNumeric_of_fits hfits
  have hlength := hshort.length_numericBytes
  have hnumeric := (reads_newNumericFromBytes t hshort).run
  unfold readContent writeContent
  rw [hx]
  cases ht : t.typ <;> rw [ht] at hexact <;> simp [SqlType.isExactDecimal] at hexact
  all_goals
    refine Reads.bind (reads_readInt (x := (numericBytes x).length) (by omega) (by omega)) ?_
    refine (reads_readLength (numericBytes x)).bind_nil ?_
    refine Reads.bind_nil (reads_lift hnumeric) ?_
    exact reads_pure _

/-- A content comes back, whatever is written after it. -/
theorem reads_readContent {c : Content} (hv : v.v = some c) (htyp : v.typ.typ = t.typ)
    (hlength : v.stringValue.length < 2 ^ 31) :
    Reads (readContent t) (writeContent t.typ v) (some (storedContent t c)) := by
  cases c with
  | bool x => exact reads_bool hv htyp
  | int x => exact reads_int hv htyp
  | f64 x => exact reads_f64 hv htyp
  | string x => exact reads_string hv htyp (by simpa [Value.stringValue, hv] using hlength)
  | time x => exact reads_time hv htyp
  | numeric x => exact reads_numeric hv htyp

end

end Vsql.Rows
