import Vsql.Bytes
import Vsql.Values.Numeric
import Vsql.Values.Time

/-!
# Values

A value has a declared type and, unless it is NULL, a content that fits it.
`compare` is the comparison of the predicates.  Numbers are compared exactly
when both are exact, and as `f64` otherwise; strings as if the shorter one were
padded with spaces; datetimes in UTC when one of them has a time zone.
-/

namespace Vsql

open Foundation

/-- `InternalValue` in the source. -/
inductive Content where
  | bool (x : Bool)
  | int (x : Int)
  | f64 (x : F64)
  | string (x : Bytes)
  | time (x : Time)
  | numeric (x : Numeric)
  deriving DecidableEq

/-- `f32(x)`, as an `f64`. -/
def asReal (x : F64) : F64 := ((x.convert : F32).convert : F64)

def SqlType.intBits : SqlType → Nat
  | .smallint => 16
  | .integer => 32
  | _ => 64

/-- Files of older versions have numbers with more digits than their scale. -/
structure Numeric.Fits (t : DataType) (x : Numeric) : Prop where
  typ : t.typ.isExactDecimal
  scale : x.typ.scale = t.scale ∧ t.scale ≤ maxNumericPrecision
  denominator : 0 < x.denominator ∧ x.denominator < 10 ^ (t.scale + 1)
  numerator : (x.numerator.natAbs : Int) < 10 ^ maxNumericPrecision * x.denominator

def Content.Fits (t : DataType) : Content → Prop
  | .bool _ => t.typ = .boolean
  | .int x => t.typ.isInteger ∧
      -2 ^ (t.typ.intBits - 1) ≤ x ∧ x < 2 ^ (t.typ.intBits - 1)
  | .f64 x => t.typ = .doublePrecision ∨ t.typ = .real ∧ (x.isNaN ∨ asReal x = x)
  | .string _ => t.typ.isString
  | .time x => t.typ.isDatetime ∧ x.typ.typ = t.typ
  | .numeric x => x.Fits t

structure Value where
  typ : DataType
  v : Option Content
  fits : ∀ c ∈ v, c.Fits typ
  deriving DecidableEq

namespace Value

def isNull (v : Value) : Bool := v.v.isNone

def null (typ : DataType) : Value := ⟨typ, none, by simp⟩

def intValue (v : Value) : Int :=
  match v.v with
  | some (.int x) => x
  | _ => 0

def boolValue (v : Value) : Bool :=
  match v.v with
  | some (.bool x) => x
  | _ => false

def f64Value (v : Value) : F64 :=
  match v.v with
  | some (.f64 x) => x
  | _ => BinaryFloat.ofInt 0

def stringValue (v : Value) : Bytes :=
  match v.v with
  | some (.string x) => x
  | _ => []

def timeValue? (v : Value) : Option Time :=
  match v.v with
  | some (.time x) => some x
  | _ => none

def numericValue (v : Value) : Numeric :=
  match v.v with
  | some (.numeric x) => x
  | _ => Numeric.ofInt 0

/-- `as_f64` of a number. -/
def asF64 (v : Value) : F64 :=
  if v.typ.typ.isExactDecimal then v.numericValue.f64
  else if v.typ.typ.isInteger then BinaryFloat.ofInt v.intValue
  else v.f64Value

/-- `as_numeric` of an exact number. -/
def asExactNumeric (v : Value) : Numeric :=
  if v.typ.typ.isExactDecimal then v.numericValue else Numeric.ofInt v.intValue

/-! ## Comparison -/

def compareInts (x y : Int) : CompareResult :=
  if x < y then .isLess else if y < x then .isGreater else .isEqual

def compareNumbers (x y : Value) : CompareResult :=
  if x.typ.typ.isExactDecimal ∧ y.typ.typ.isExactDecimal then
    x.numericValue.compare y.numericValue
  else if x.typ.typ.isExactDecimal ∧ y.typ.typ.isInteger ∨
      x.typ.typ.isInteger ∧ y.typ.typ.isExactDecimal then
    x.asExactNumeric.compare y.asExactNumeric
  else if x.typ.typ.isInteger ∧ y.typ.typ.isInteger then
    compareInts x.intValue y.intValue
  else compareF64 x.asF64 y.asF64

def padTo (n : Nat) (s : Bytes) : Bytes := s ++ List.replicate (n - s.length) 32

def compareStrings (x y : Bytes) : CompareResult :=
  let n := max x.length y.length
  if padTo n x < padTo n y then .isLess
  else if padTo n y < padTo n x then .isGreater
  else .isEqual

def compareDatetimes (sessionTimeZone : TimeZone) (x y : Time) : CompareResult :=
  if x.typ.typ.hasTimeZone ∨ y.typ.typ.hasTimeZone then
    compareInts
      (x.utcMicros (if x.typ.typ.hasTimeZone then x.timeZone else sessionTimeZone))
      (y.utcMicros (if y.typ.typ.hasTimeZone then y.timeZone else sessionTimeZone))
  else compareInts x.i64 y.i64

def compareBooleans (x y : Bool) : CompareResult :=
  if x = true ∧ y = false then .isGreater
  else if x = false ∧ y = true then .isLess
  else .isEqual

/-- The comparison of the predicates. -/
def compare (sessionTimeZone : TimeZone) (x y : Value) : Except Failure CompareResult :=
  if x.isNull ∨ y.isNull then .ok .isUnknown
  else if x.typ.typ.isNumber ∧ y.typ.typ.isNumber then .ok (compareNumbers x y)
  else if x.typ.typ.isString ∧ y.typ.typ.isString then
    .ok (compareStrings x.stringValue y.stringValue)
  else
    match x.timeValue?, y.timeValue? with
    | some t, some u =>
        if x.typ.typ.datetimeFields = y.typ.typ.datetimeFields then
          .ok (compareDatetimes sessionTimeZone t u)
        else .error (sqlstate42883 s!"cannot compare {x.typ.str} and {y.typ.str}")
    | _, _ =>
        if x.typ.typ = .boolean ∧ y.typ.typ = .boolean then
          .ok (compareBooleans x.boolValue y.boolValue)
        else .error (sqlstate42883 s!"cannot compare {x.typ.str} and {y.typ.str}")

/-! ## Comparing with a value of the same type -/

theorem compareInts_swap (x y : Int) : compareInts y x = (compareInts x y).swap := by
  unfold compareInts
  split <;> split <;> first | rfl | omega

@[simp] theorem compareInts_eq_isLess {x y : Int} :
    compareInts x y = .isLess ↔ x < y := by
  unfold compareInts
  by_cases h : x < y
  · simp [h]
  · by_cases h' : y < x <;> simp [h, h']

@[simp] theorem compareInts_eq_isGreater {x y : Int} :
    compareInts x y = .isGreater ↔ y < x := by
  rw [← compareInts_eq_isLess, compareInts_swap x y]
  cases compareInts x y <;> simp [CompareResult.swap]

@[simp] theorem compareInts_eq_isEqual {x y : Int} :
    compareInts x y = .isEqual ↔ x = y := by
  unfold compareInts
  obtain h | rfl | h := lt_trichotomy x y
  · simp [h, h.ne]
  · simp
  · simp [h, h.ne', not_lt.mpr h.le]

end Value

end Vsql
