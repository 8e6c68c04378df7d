import Vsql.Values.TimeText

/-!
# Values as text

How a value is shown to a client.  NULL has a text too, which a string can be equal to.
-/

namespace Vsql

open Foundation

/-- The bytes of a text. -/
def Text.utf8 (s : Text) : Bytes := s.flatMap String.utf8EncodeChar

/-- `'${x:.12}'` and `'${x:.6}'`, which are of the standard library of V. -/
structure FloatFormat where
  format : Nat → F64 → Text

def trimRightZeros (s : Text) : Text := s.rdropWhile (· == '0')

/-- The shortest form with an exponent, as an approximate numeric literal has it. -/
def f64String (formats : FloatFormat) (x : F64) (bits : Nat) : Text :=
  let s := if bits = 32 then formats.format 6 x else formats.format 12 x
  if 'e' ∈ s then
    if '.' ∈ s then
      match s.splitOn 'e' with
      | mantissa :: exponent :: _ => trimRightZeros mantissa ++ 'e' :: exponent
      | _ => s
    else s
  else (if '.' ∈ s then trimRightZeros s else s) ++ "e0".toList

namespace Value

def boolText (x : Bool) : Text := if x then "TRUE".toList else "FALSE".toList

/-- `str` in the source. -/
def str (formats : FloatFormat) (v : Value) : Bytes :=
  match v.v with
  | none => (if v.typ.typ = .boolean then "UNKNOWN".toList else "NULL".toList : Text).utf8
  | some (.bool x) => (boolText x).utf8
  | some (.f64 x) => (f64String formats x (if v.typ.typ = .real then 32 else 64)).utf8
  | some (.int x) => (intText x).utf8
  | some (.string x) => x
  | some (.time x) => x.str.utf8
  | some (.numeric x) => x.str.utf8

end Value

end Vsql
