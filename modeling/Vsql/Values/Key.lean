import Mathlib.Data.Nat.Bitwise
import Vsql.Foundation.OrderedCode
import Vsql.Values.Value

/-!
# Values in keys

A value in a key is written so that the bytes sort in the same order as the
values, and so that no value is the start of another one.  `Agrees` says what
that means for the result of a comparison.
-/

namespace Vsql

open Foundation
open Foundation.OrderedCode

/-! ## Writing values -/

def writeKeyInteger (value : Int) (size : Nat) : Bytes :=
  let flipped := (value % 2 ^ 64).toNat ^^^ 2 ^ (size * 8 - 1)
  bigEndian size flipped

def f32Bits (x : F32) : Nat := if x.negative then 2 ^ 31 + x.magnitude else x.magnitude

def f64Bits (x : F64) : Nat := if x.negative then 2 ^ 63 + x.magnitude else x.magnitude

/-- Zero and negative zero are equal, so they are the same key. -/
def writeKeyFloat (value : F64) (size : Nat) : Bytes :=
  let x := if value.isZero then BinaryFloat.ofInt 0 else value
  let bits := if size = 4 then f32Bits x.convert else f64Bits x
  let sign := 2 ^ (size * 8 - 1)
  let flipped := if bits / sign % 2 = 1 then 2 ^ 64 - 1 - bits else sign + bits
  bigEndian size flipped

/-- The digits before and after the point, and the exponent of the first one. -/
def significantDigits (magnitude places : Nat) : Int × List Nat :=
  let s := decimal magnitude
  let s := if s.length ≤ places then List.replicate (places + 1 - s.length) 0 ++ s else s
  let integerDigits := (s.take (s.length - places)).dropWhile (· == 0)
  let fractionDigits := s.drop (s.length - places)
  let digits := dropZeros ((integerDigits ++ fractionDigits).dropWhile (· == 0))
  let exponent : Int :=
    if integerDigits ≠ [] then integerDigits.length
    else (fractionDigits.dropWhile (· == 0)).length - fractionDigits.length
  (exponent, digits)

def writeKeyNumeric (value : Numeric) : Bytes :=
  if value.isZero then [1]
  else
    let places := 2 * value.typ.scale + 3
    let magnitude := value.numerator.natAbs * 10 ^ places / value.denominator.toNat
    let (exponent, digits) := significantDigits magnitude places
    let key := writeKeyInteger exponent 2 ++ (terminated digits).map UInt8.ofNat
    if value.isNegative then 0 :: key.map (~~~ ·) else 2 :: key

/-- A space is followed by whether the next other character sorts after it. -/
def writeKeyCharacters : Bytes → Bytes
  | [] => [32, 1]
  | b :: rest =>
      if b = 32 then
        32 :: (if 32 < (rest.dropWhile (· == 32)).headD 0 then 2 else 0) ::
          writeKeyCharacters rest
      else b :: writeKeyCharacters rest

def trimRight (s : Bytes) : Bytes := (s.reverse.dropWhile (· == 32)).reverse

def writeKeyString (value : Bytes) : Bytes := writeKeyCharacters (trimRight value)

/-- A datetime with a time zone is written in UTC. -/
def writeKeyTime (t : Time) (typ : SqlType) : Bytes :=
  if typ.hasTimeZone then writeKeyInteger (t.utcMicros t.timeZone) 8
  else writeKeyInteger t.i64 8

def writeKeyValue (value : Value) (typ : SqlType) : Bytes :=
  match typ with
  | .boolean => [if value.boolValue then 2 else 1]
  | .smallint => writeKeyInteger value.intValue 2
  | .integer => writeKeyInteger value.intValue 4
  | .bigint => writeKeyInteger value.intValue 8
  | .real => writeKeyFloat value.f64Value 4
  | .doublePrecision => writeKeyFloat value.f64Value 8
  | .numeric | .decimal => writeKeyNumeric value.numericValue
  | .character | .varchar => writeKeyString value.stringValue
  | .timeWithTimeZone | .timestampWithTimeZone
  | .date | .timeWithoutTimeZone | .timestampWithoutTimeZone =>
      match value.timeValue? with
      | some t => writeKeyTime t typ
      | none => writeKeyInteger 0 8

/-! ## The order of the keys -/

/-- The strings are in the order that the comparison found. -/
def Agrees (c : CompareResult) (a b : Bytes) : Prop :=
  (c = .isLess → Before a b) ∧ (c = .isEqual → a = b) ∧ (c = .isGreater → Before b a)

theorem Agrees.swap {c : CompareResult} {a b : Bytes} (h : Agrees c a b) :
    Agrees c.swap b a := by
  refine ⟨fun hc => ?_, fun hc => ?_, fun hc => ?_⟩
  · exact h.2.2 (by cases c <;> simp_all [CompareResult.swap])
  · exact (h.2.1 (by cases c <;> simp_all [CompareResult.swap])).symm
  · exact h.1 (by cases c <;> simp_all [CompareResult.swap])

/-! ### Integers -/

theorem bigEndian_eq_map (size n : Nat) :
    bigEndian size n = (fixedWidth 256 size n).map UInt8.ofNat := by
  induction size generalizing n with
  | zero => rfl
  | succ size ih => simp [bigEndian, fixedWidth, ih]

theorem fixedWidth_mod (base width n : Nat) :
    fixedWidth base width (n % base ^ width) = fixedWidth base width n := by
  induction width generalizing n with
  | zero => rfl
  | succ width ih =>
      have hdiv : n % base ^ (width + 1) / base = n / base % base ^ width := by
        rw [Nat.pow_succ', Nat.mod_mul_right_div_self]
      have hmod : n % base ^ (width + 1) % base = n % base :=
        Nat.mod_mod_of_dvd n (Dvd.intro_left (base ^ width) rfl)
      rw [fixedWidth, fixedWidth, hdiv, hmod, ih]

theorem bigEndian_mod (size n : Nat) :
    bigEndian size (n % 256 ^ size) = bigEndian size n := by
  rw [bigEndian_eq_map, bigEndian_eq_map, fixedWidth_mod]

theorem ofNat_lt_ofNat {x y : Nat} (hy : y < 256) (h : x < y) :
    UInt8.ofNat x < UInt8.ofNat y := by
  rw [UInt8.lt_iff_toNat_lt]
  simp only [UInt8.toNat_ofNat']
  omega

theorem before_bigEndian {size m n : Nat} (h : m < n) (hn : n < 256 ^ size) :
    Before (bigEndian size m) (bigEndian size n) := by
  rw [bigEndian_eq_map, bigEndian_eq_map]
  refine Before.map ?_ (before_fixedWidth h hn)
  intro x _ y hy hxy
  exact ofNat_lt_ofNat (lt_of_mem_fixedWidth (by omega) hy) hxy

theorem xor_two_pow_of_lt {w k : Nat} (h : w < 2 ^ k) : w ^^^ 2 ^ k = 2 ^ k + w := by
  apply Nat.eq_of_testBit_eq
  intro i
  rw [Nat.testBit_xor, Nat.testBit_two_pow]
  obtain hi | rfl | hi := lt_trichotomy i k
  · rw [Nat.testBit_two_pow_add_gt hi]
    simp [hi.ne']
  · simp [Nat.testBit_two_pow_add_eq, Nat.testBit_lt_two_pow h]
  · have hpow : 2 ^ (k + 1) ≤ 2 ^ i := Nat.pow_le_pow_right (by omega) hi
    rw [Nat.pow_succ] at hpow
    rw [Nat.testBit_lt_two_pow (x := 2 ^ k + w) (by omega),
      Nat.testBit_lt_two_pow (x := w) (by omega)]
    simp [hi.ne]

/-- Flipping the sign bit moves the smallest number to zero. -/
theorem flipped_mod {value : Int} {k : Nat} (hk : k < 64)
    (hlow : -2 ^ k ≤ value) (hhigh : value < 2 ^ k) :
    ((value % 2 ^ 64).toNat ^^^ 2 ^ k) % 2 ^ (k + 1) = (value + 2 ^ k).toNat := by
  have hdvd : (2 : Int) ^ (k + 1) ∣ 2 ^ 64 := pow_dvd_pow 2 (by omega)
  have hpow : (2 : Nat) ^ (k + 1) = 2 ^ k + 2 ^ k := by rw [Nat.pow_succ]; omega
  have hcast : ((2 ^ k : Nat) : Int) = 2 ^ k := by push_cast; rfl
  have hbit : 2 ^ k % 2 ^ (k + 1) = 2 ^ k := Nat.mod_eq_of_lt (by
    have := Nat.two_pow_pos k
    omega)
  have hmod : (value % 2 ^ 64).toNat % 2 ^ (k + 1) = (value % 2 ^ (k + 1)).toNat := by
    have hnonneg : 0 ≤ value % 2 ^ 64 := Int.emod_nonneg _ (by norm_num)
    have hcast' : ((2 ^ (k + 1) : Nat) : Int) = 2 ^ (k + 1) := by push_cast; rfl
    rw [← Int.emod_emod_of_dvd value hdvd, ← hcast', ← Int.toNat_of_nonneg hnonneg]
    exact (Int.toNat_natCast _).symm
  rw [Nat.xor_mod_two_pow, hmod, hbit]
  by_cases hneg : value < 0
  · have hval : (value % 2 ^ (k + 1)).toNat = 2 ^ k + (value + 2 ^ k).toNat := by
      have hshift : value % 2 ^ (k + 1) = value + 2 ^ (k + 1) := by
        rw [← Int.add_emod_right]
        refine Int.emod_eq_of_lt ?_ ?_
        · have : (2 : Int) ^ (k + 1) = 2 ^ k + 2 ^ k := by ring
          omega
        · omega
      rw [hshift]
      have : (2 : Int) ^ (k + 1) = 2 ^ k + 2 ^ k := by ring
      omega
    rw [hval, ← xor_two_pow_of_lt (by omega), Nat.xor_assoc, Nat.xor_self, Nat.xor_zero]
  · have hval : (value % 2 ^ (k + 1)).toNat = value.toNat := by
      rw [Int.emod_eq_of_lt (by omega)]
      have : (2 : Int) ^ (k + 1) = 2 ^ k + 2 ^ k := by ring
      omega
    rw [hval, xor_two_pow_of_lt (by omega)]
    omega

theorem writeKeyInteger_eq {value : Int} {size : Nat} (hsize : 0 < size ∧ size ≤ 8)
    (hlow : -2 ^ (size * 8 - 1) ≤ value) (hhigh : value < 2 ^ (size * 8 - 1)) :
    writeKeyInteger value size =
      bigEndian size (value + 2 ^ (size * 8 - 1)).toNat := by
  have hpow : 256 ^ size = 2 ^ (size * 8 - 1 + 1) := by
    rw [Nat.sub_add_cancel (by omega), Nat.mul_comm, Nat.pow_mul]
  rw [writeKeyInteger, ← bigEndian_mod, hpow, flipped_mod (by omega) hlow hhigh]

theorem agrees_writeKeyInteger {x y : Int} {size : Nat} (hsize : 0 < size ∧ size ≤ 8)
    (hx : -2 ^ (size * 8 - 1) ≤ x ∧ x < 2 ^ (size * 8 - 1))
    (hy : -2 ^ (size * 8 - 1) ≤ y ∧ y < 2 ^ (size * 8 - 1)) :
    Agrees (Value.compareInts x y) (writeKeyInteger x size) (writeKeyInteger y size) := by
  have hpow : (256 : Nat) ^ size = 2 ^ (size * 8 - 1) + 2 ^ (size * 8 - 1) := by
    rw [← Nat.two_mul, ← Nat.pow_succ', Nat.succ_eq_add_one,
      Nat.sub_add_cancel (by omega), Nat.mul_comm, Nat.pow_mul]
  have hcast : ((2 ^ (size * 8 - 1) : Nat) : Int) = 2 ^ (size * 8 - 1) := by
    push_cast
    rfl
  rw [writeKeyInteger_eq hsize hx.1 hx.2, writeKeyInteger_eq hsize hy.1 hy.2]
  refine ⟨fun h => ?_, fun h => ?_, fun h => ?_⟩
  · rw [Value.compareInts_eq_isLess] at h
    exact before_bigEndian (by omega) (by omega)
  · rw [Value.compareInts_eq_isEqual] at h
    rw [h]
  · rw [Value.compareInts_eq_isGreater] at h
    exact before_bigEndian (by omega) (by omega)

/-! ### Approximate numbers -/

/-- The bits of a number, so that they sort like the numbers. -/
def sortKey {f : FloatFormat} (x : BinaryFloat f) : Nat :=
  if x.negative then 2 ^ f.bits - 1 - x.magnitude else 2 ^ f.bits + x.magnitude

theorem sortKey_lt {f : FloatFormat} {x y : BinaryFloat f} (h : x.order < y.order) :
    sortKey x < sortKey y := by
  obtain ⟨xneg, xm, hx⟩ := x
  obtain ⟨yneg, ym, hy⟩ := y
  simp only [BinaryFloat.order] at h
  simp only [sortKey]
  generalize 2 ^ f.bits = p at *
  cases xneg <;> cases yneg <;>
    simp only [Bool.false_eq_true, if_false, if_true] at h ⊢ <;> omega

theorem sortKey_bound {f : FloatFormat} (x : BinaryFloat f) :
    sortKey x < 2 ^ f.bits + 2 ^ f.bits := by
  have hx := x.bound
  simp only [sortKey]
  split <;> omega

/-- Negative zero as zero. -/
def withoutNegativeZero (x : F64) : F64 := if x.isZero then BinaryFloat.ofInt 0 else x

theorem order_of_magnitude_zero {f : FloatFormat} {x : BinaryFloat f}
    (h : x.magnitude = 0) : x.order = 0 := by
  simp [BinaryFloat.order, h]

theorem magnitude_ofInt_zero {f : FloatFormat} :
    (BinaryFloat.ofInt 0 : BinaryFloat f).magnitude = 0 := by
  simp [BinaryFloat.ofInt, BinaryFloat.ofFraction, f.roundMagnitude_zero Nat.one_pos]

theorem order_withoutNegativeZero (x : F64) :
    (withoutNegativeZero x).order = x.order := by
  unfold withoutNegativeZero
  split
  · next hzero =>
      rw [order_of_magnitude_zero magnitude_ofInt_zero,
        order_of_magnitude_zero (by simpa [BinaryFloat.isZero] using hzero)]
  · rfl

theorem withoutNegativeZero_eq {x y : F64} (h : x.order = y.order) :
    withoutNegativeZero x = withoutNegativeZero y := by
  by_cases hx : x.magnitude = 0
  · have hy : y.magnitude = 0 := by
      rw [order_of_magnitude_zero hx, BinaryFloat.order] at h
      split at h <;> omega
    simp [withoutNegativeZero, BinaryFloat.isZero, hx, hy]
  · rw [BinaryFloat.eq_of_order_eq h hx]

theorem isNaN_withoutNegativeZero {x : F64} (h : x.isNaN = false) :
    (withoutNegativeZero x).isNaN = false := by
  unfold withoutNegativeZero
  split
  · simp [BinaryFloat.isNaN, magnitude_ofInt_zero]
  · exact h

theorem writeKeyFloat_eight (x : F64) :
    writeKeyFloat x 8 = bigEndian 8 (sortKey (withoutNegativeZero x)) := by
  have hbound : (withoutNegativeZero x).magnitude < 2 ^ 63 := (withoutNegativeZero x).bound
  have hbits : binary64.bits = 63 := rfl
  rw [writeKeyFloat]
  simp only [← withoutNegativeZero.eq_def, f64Bits, sortKey, hbits,
    show ¬(8 = 4) by decide, if_false]
  cases (withoutNegativeZero x).negative
  · simp only [Bool.false_eq_true, if_false]
    rw [if_neg (by omega)]
  · simp only [if_true]
    rw [if_pos (by omega)]
    congr 1
    omega

theorem writeKeyFloat_four (x : F64) :
    writeKeyFloat x 4 =
      bigEndian 4 (sortKey ((withoutNegativeZero x).convert : F32)) := by
  have hbound : ((withoutNegativeZero x).convert : F32).magnitude < 2 ^ 31 :=
    ((withoutNegativeZero x).convert : F32).bound
  have hbits : binary32.bits = 31 := rfl
  rw [writeKeyFloat]
  simp only [← withoutNegativeZero.eq_def, f32Bits, sortKey, hbits, if_true]
  cases ((withoutNegativeZero x).convert : F32).negative
  · simp only [Bool.false_eq_true, if_false]
    rw [if_neg (by omega)]
  · simp only [if_true]
    rw [if_pos (by omega), ← bigEndian_mod]
    congr 1
    omega

theorem compareF64_eq {x y : F64} (hx : x.isNaN = false) (hy : y.isNaN = false) :
    compareF64 x y = Value.compareInts x.order y.order := by
  simp [compareF64, BinaryFloat.lt, hx, hy, Value.compareInts]

theorem agrees_writeKeyFloat_eight {x y : F64} (hx : x.isNaN = false)
    (hy : y.isNaN = false) :
    Agrees (compareF64 x y) (writeKeyFloat x 8) (writeKeyFloat y 8) := by
  rw [compareF64_eq hx hy, writeKeyFloat_eight, writeKeyFloat_eight]
  refine ⟨fun h => ?_, fun h => ?_, fun h => ?_⟩
  · rw [Value.compareInts_eq_isLess] at h
    refine before_bigEndian (sortKey_lt ?_) (sortKey_bound _)
    rwa [order_withoutNegativeZero, order_withoutNegativeZero]
  · rw [Value.compareInts_eq_isEqual] at h
    rw [withoutNegativeZero_eq h]
  · rw [Value.compareInts_eq_isGreater] at h
    refine before_bigEndian (sortKey_lt ?_) (sortKey_bound _)
    rwa [order_withoutNegativeZero, order_withoutNegativeZero]

/-- A REAL is an `f32`, so converting it to one does not lose anything. -/
theorem order_convert_lt {x y : F64} (hx : x.isNaN = false) (hy : y.isNaN = false)
    (hxr : asReal x = x) (hyr : asReal y = y) (h : x.order < y.order) :
    (x.convert : F32).order < (y.convert : F32).order := by
  have hle : (x.convert : F32).order ≤ (y.convert : F32).order :=
    BinaryFloat.order_convert_mono hx hy h.le
  refine lt_of_le_of_ne hle fun heq => ?_
  have hne : x ≠ y := by
    rintro rfl
    exact lt_irrefl _ h
  by_cases hzero : (x.convert : F32).magnitude = 0
  · have hyzero : (y.convert : F32).magnitude = 0 := by
      rw [order_of_magnitude_zero hzero, BinaryFloat.order] at heq
      split at heq <;> omega
    have hxm : x.magnitude = 0 := by
      rw [← hxr]
      exact BinaryFloat.magnitude_convert_zero hzero
    have hym : y.magnitude = 0 := by
      rw [← hyr]
      exact BinaryFloat.magnitude_convert_zero hyzero
    rw [order_of_magnitude_zero hxm, order_of_magnitude_zero hym] at h
    exact lt_irrefl _ h
  · refine hne ?_
    rw [← hxr, ← hyr, asReal, asReal, BinaryFloat.eq_of_order_eq heq hzero]

theorem asReal_zero : asReal (BinaryFloat.ofInt 0) = BinaryFloat.ofInt 0 := by
  have hzero : (BinaryFloat.ofInt 0 : F64).magnitude = 0 := magnitude_ofInt_zero
  have hsmall : ((BinaryFloat.ofInt 0 : F64).convert : F32).magnitude = 0 :=
    BinaryFloat.magnitude_convert_zero hzero
  refine BinaryFloat.eq_of_zero ?_ ?_ hzero
  · exact BinaryFloat.magnitude_convert_zero hsmall
  · rw [asReal, BinaryFloat.negative_convert_zero hsmall,
      BinaryFloat.negative_convert_zero hzero]

theorem asReal_withoutNegativeZero {x : F64} (h : asReal x = x) :
    asReal (withoutNegativeZero x) = withoutNegativeZero x := by
  unfold withoutNegativeZero
  split
  · exact asReal_zero
  · exact h

theorem agrees_writeKeyFloat_four {x y : F64} (hx : x.isNaN = false)
    (hy : y.isNaN = false) (hxr : asReal x = x) (hyr : asReal y = y) :
    Agrees (compareF64 x y) (writeKeyFloat x 4) (writeKeyFloat y 4) := by
  have hlt : ∀ a b : F64, a.isNaN = false → b.isNaN = false → asReal a = a →
      asReal b = b → a.order < b.order →
      Before (writeKeyFloat a 4) (writeKeyFloat b 4) := by
    intro a b ha hb har hbr hab
    rw [writeKeyFloat_four, writeKeyFloat_four]
    refine before_bigEndian (sortKey_lt ?_) (sortKey_bound _)
    refine order_convert_lt (isNaN_withoutNegativeZero ha)
      (isNaN_withoutNegativeZero hb) (asReal_withoutNegativeZero har)
      (asReal_withoutNegativeZero hbr) ?_
    rwa [order_withoutNegativeZero, order_withoutNegativeZero]
  rw [compareF64_eq hx hy]
  refine ⟨fun h => ?_, fun h => ?_, fun h => ?_⟩
  · exact hlt x y hx hy hxr hyr (by simpa using h)
  · rw [Value.compareInts_eq_isEqual] at h
    rw [writeKeyFloat_four, writeKeyFloat_four, withoutNegativeZero_eq h]
  · exact hlt y x hy hx hyr hxr (by simpa using h)

end Vsql
