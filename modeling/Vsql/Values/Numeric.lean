import Mathlib.Data.Nat.Log
import Vsql.Foundation.BinaryFloat
import Vsql.Values.SqlType

/-!
# Numbers

A NUMERIC or DECIMAL is a fraction.  DOUBLE PRECISION and REAL are the binary
interchange formats of 64 and 32 bits.
-/

namespace Vsql

open Foundation

/-! ## Approximate numbers -/

def binary64 : FloatFormat := ⟨52, 11, by decide⟩
def binary32 : FloatFormat := ⟨23, 8, by decide⟩

abbrev F64 := BinaryFloat binary64
abbrev F32 := BinaryFloat binary32

/-- The comparison of `f64`s: whatever is neither less nor greater is equal. -/
def compareF64 (x y : F64) : CompareResult :=
  if BinaryFloat.lt x y then .isLess
  else if BinaryFloat.lt y x then .isGreater
  else .isEqual

/-! ## Exact numbers -/

structure Numeric where
  typ : DataType
  numerator : Int
  denominator : Int
  deriving DecidableEq, Repr

namespace Numeric

def isZero (n : Numeric) : Bool := n.numerator == 0

def isNegative (n : Numeric) : Bool := decide (n.numerator < 0)

/-- The integer part. -/
def integer (n : Numeric) : Int := n.numerator.tdiv n.denominator

def scaleNumerator (n : Numeric) (denominator : Int) : Numeric :=
  ⟨n.typ, (n.numerator * denominator).tdiv n.denominator, denominator⟩

def normalizeDenominator (n : Numeric) (typ : DataType) : Numeric :=
  let denominator : Int := 10 ^ typ.scale
  if (typ.typ = .numeric ∨ typ.typ = .decimal) ∧ n.denominator ≠ denominator then
    n.scaleNumerator denominator
  else n

def commonDenominator (n1 n2 : Numeric) : Numeric × Numeric :=
  if n1.denominator = n2.denominator then (n1, n2)
  else
    let typ := if n1.typ.scale > n2.typ.scale then n1.typ else n2.typ
    (⟨typ, n1.numerator * n2.denominator, n1.denominator * n2.denominator⟩,
      ⟨typ, n2.numerator * n1.denominator, n2.denominator * n1.denominator⟩)

def compare (n1 n2 : Numeric) : CompareResult :=
  let (n3, n4) := commonDenominator n1 n2
  if n3.numerator < n4.numerator then .isLess
  else if n4.numerator < n3.numerator then .isGreater
  else .isEqual

def f64 (n : Numeric) : F64 :=
  BinaryFloat.div (BinaryFloat.ofInt n.numerator) (BinaryFloat.ofInt n.denominator)

/-- `new_numeric_from_string` of an integer. -/
def ofInt (x : Int) : Numeric :=
  ⟨{ typ := .numeric, size := Nat.log 10 x.natAbs + 1 }, x, 1⟩

/-- Fractions compare by cross multiplication. -/
theorem compare_eq {n1 n2 : Numeric} (h1 : 0 < n1.denominator) :
    n1.compare n2 =
      if n1.numerator * n2.denominator < n2.numerator * n1.denominator then .isLess
      else if n2.numerator * n1.denominator < n1.numerator * n2.denominator then
        .isGreater
      else .isEqual := by
  unfold compare commonDenominator
  by_cases heq : n1.denominator = n2.denominator
  · rw [if_pos heq, ← heq]
    simp only [mul_lt_mul_iff_left₀ h1]
  · rw [if_neg heq]

end Numeric

end Vsql
