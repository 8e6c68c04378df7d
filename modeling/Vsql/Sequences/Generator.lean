import Vsql.Foundation.Runs
import Vsql.Lexer.Names
import Vsql.Values.StoreAssignment
import Vsql.Values.ValueText

/-!
# Sequence generators

A sequence has the value before the one that comes next.  What CREATE SEQUENCE and ALTER
SEQUENCE make of it, and what NEXT VALUE FOR issues.  Every number is an `i64`, so that a
value can wrap around.
-/

namespace Vsql

open Foundation

structure Sequence where
  tid : Nat := 0
  /-- Adding the increment would go past the range of a BIGINT. -/
  exhausted : Bool
  /-- The value that comes next was not issued, because it is the first one. -/
  unused : Bool
  name : Identifier
  startValue : Int64
  currentValue : Int64
  incrementBy : Int64
  cycle : Bool
  hasMinValue : Bool
  minValue : Int64
  hasMaxValue : Bool
  maxValue : Int64
  deriving DecidableEq

namespace Sequence

def min (s : Sequence) : Int64 :=
  if s.hasMinValue then s.minValue else if s.incrementBy > 0 then 1 else Int64.minValue

def max (s : Sequence) : Int64 :=
  if s.hasMaxValue then s.maxValue else if s.incrementBy > 0 then Int64.maxValue else -1

/-- The first value of a new cycle. -/
def reset (s : Sequence) : Int64 := if s.incrementBy > 0 then s.min else s.max

def check (s : Sequence) : Except Failure Unit :=
  if s.incrementBy = 0 then .error (sqlstate42601 "INCREMENT BY must not be 0")
  else if s.min ≥ s.max then
    .error (sqlstate42601 s!"MAXVALUE ({s.max}) must be greater than MINVALUE ({s.min})")
  else .ok ()

def checkInRange (s : Sequence) (name : String) (value : Int64) : Except Failure Unit :=
  if value < s.min then
    .error (sqlstate42601 s!"{name} ({value}) must not be less than MINVALUE ({s.min})")
  else if value > s.max then
    .error (sqlstate42601 s!"{name} ({value}) must not be greater than MAXVALUE ({s.max})")
  else .ok ()

/-- The sum, and whether it went past the range of an `i64`. -/
def addI64 (a b : Int64) : Int64 × Bool :=
  (a + b, (b > 0 && a > Int64.maxValue - b) || (b < 0 && a < Int64.minValue - b))

def nextValue (s : Sequence) : Option Int64 :=
  let (nextValue, overflow) := addI64 s.currentValue s.incrementBy
  if (overflow && s.exhausted) || nextValue > s.max || nextValue < s.min then none
  else some nextValue

def issue (s : Sequence) (nextValue : Int64) : Sequence :=
  let (_, exhausted) := addI64 nextValue s.incrementBy
  { s with currentValue := nextValue, exhausted := exhausted, unused := false }

def next (s : Sequence) : Except Failure Sequence :=
  match s.nextValue with
  | some nextValue => .ok (s.issue nextValue)
  | none =>
      if s.cycle then .ok (s.issue s.reset)
      else .error (sqlstate2200H s.name.str.str)

end Sequence

/-! ## Options -/

inductive SequenceGeneratorOption where
  | startWith (startValue : Value)
  | restart (restartValue : Option Value)
  | incrementBy (incrementBy : Value)
  /-- NO MINVALUE has no value. -/
  | minvalue (minValue : Option Value)
  | maxvalue (maxValue : Option Value)
  | cycle (cycle : Bool)

structure SequenceGeneratorDefinition where
  name : Identifier
  options : List SequenceGeneratorOption
  ifNotExists : Bool := false

/-- `i64(x)` of a number in the range of an `i64`. -/
def f64Integer (x : F64) : Int :=
  let magnitude : Int := binary64.units x.magnitude / 2 ^ binary64.scale
  if x.negative then -magnitude else magnitude

/-- `x == math.floor(x)` -/
def isFloor (x : F64) : Bool :=
  !x.isNaN && binary64.units x.magnitude % 2 ^ binary64.scale == 0

def usesInt (typ : SqlType) : Bool := typ.isInteger || typ == .boolean

/-- `as_int` -/
def Value.asInt (v : Value) : Int64 :=
  if v.typ.typ.isExactDecimal then Int64.ofInt (f64Integer v.numericValue.f64)
  else if usesInt v.typ.typ then Int64.ofInt v.intValue
  else Int64.ofInt (f64Integer v.f64Value)

namespace SequenceGeneratorOption

def nameAndValue : SequenceGeneratorOption → String × Option Value
  | startWith v => ("START WITH", some v)
  | restart v => ("RESTART", v)
  | incrementBy v => ("INCREMENT BY", some v)
  | minvalue v => ("MINVALUE", v)
  | maxvalue v => ("MAXVALUE", v)
  | cycle _ => ("CYCLE", none)

def checkValue (formats : FloatFormat) (name : String) (v : Value) : Except Failure Unit :=
  let text := bytestr (v.str formats)
  if usesInt v.typ.typ then .ok ()
  else if !isFloor v.asF64 then
    .error (sqlstate42601 s!"{name} must be an integer: {text}")
  else if f64Integer v.asF64 < -2 ^ 63 ∨ 2 ^ 63 ≤ f64Integer v.asF64 then
    .error (sqlstate42601 s!"{name} is out of range for BIGINT: {text}")
  else .ok ()

end SequenceGeneratorOption

open SequenceGeneratorOption

def checkSequenceOptionsFrom (formats : FloatFormat) :
    (seen : List String) → List SequenceGeneratorOption → Except Failure Unit
  | _, [] => .ok ()
  | seen, option :: options => do
      let (name, value) := option.nameAndValue
      if name ∈ seen then throw (sqlstate42601 s!"{name} is specified more than once")
      match value with
      | some v => checkValue formats name v
      | none => pure ()
      checkSequenceOptionsFrom formats (name :: seen) options

def checkSequenceOptions (formats : FloatFormat) (options : List SequenceGeneratorOption) :
    Except Failure Unit :=
  checkSequenceOptionsFrom formats [] options

/-! ## CREATE SEQUENCE -/

/-- The sequence and whether it has a START WITH. -/
def defineOption (s : Sequence × Bool) : SequenceGeneratorOption → Sequence × Bool
  | startWith v => ({ s.1 with startValue := v.asInt }, true)
  | restart _ => s
  | incrementBy v => ({ s.1 with incrementBy := v.asInt }, s.2)
  | minvalue (some v) => ({ s.1 with minValue := v.asInt, hasMinValue := true }, s.2)
  | minvalue none => s
  | maxvalue (some v) => ({ s.1 with maxValue := v.asInt, hasMaxValue := true }, s.2)
  | maxvalue none => s
  | cycle b => ({ s.1 with cycle := b }, s.2)

def newSequence (name : Identifier) : Sequence where
  exhausted := false
  unused := true
  name := name
  startValue := 0
  currentValue := 0
  incrementBy := 1
  cycle := false
  hasMinValue := false
  minValue := 0
  hasMaxValue := false
  maxValue := 0

def SequenceGeneratorDefinition.sequence (stmt : SequenceGeneratorDefinition)
    (sequenceName : Identifier) : Sequence :=
  let (s, hasStartValue) := stmt.options.foldl defineOption (newSequence sequenceName, false)
  let startValue := if hasStartValue then s.startValue else s.reset
  { s with startValue := startValue, currentValue := startValue - s.incrementBy }

/-- `create`, for a name that is not used. -/
def SequenceGeneratorDefinition.create (formats : FloatFormat)
    (stmt : SequenceGeneratorDefinition) (sequenceName : Identifier) : Except Failure Sequence := do
  checkSequenceOptions formats stmt.options
  let s := stmt.sequence sequenceName
  s.check
  s.checkInRange "START WITH" s.startValue
  pure s

/-! ## ALTER SEQUENCE -/

structure Altering where
  sequence : Sequence
  restart : Option (Int64 × String)
  newMinValue : Bool
  newMaxValue : Bool

def alterOption (a : Altering) : SequenceGeneratorOption → Altering
  | startWith _ => a
  | restart (some v) => { a with restart := some (v.asInt, "RESTART WITH") }
  | restart none => { a with restart := some (a.sequence.startValue, "START WITH") }
  | incrementBy v => { a with sequence := { a.sequence with incrementBy := v.asInt } }
  | minvalue (some v) =>
      { a with
        sequence := { a.sequence with minValue := v.asInt, hasMinValue := true }
        newMinValue := true }
  | minvalue none =>
      { a with sequence := { a.sequence with hasMinValue := false }, newMinValue := true }
  | maxvalue (some v) =>
      { a with
        sequence := { a.sequence with maxValue := v.asInt, hasMaxValue := true }
        newMaxValue := true }
  | maxvalue none =>
      { a with sequence := { a.sequence with hasMaxValue := false }, newMaxValue := true }
  | cycle b => { a with sequence := { a.sequence with cycle := b } }

/-- A limit that is not changed stays the same, even if the direction changes. -/
def Altering.keepLimits (a : Altering) (old : Sequence) : Sequence :=
  let s := a.sequence
  if decide (old.incrementBy > 0) ≠ decide (s.incrementBy > 0) then
    let s := if !a.newMinValue && !old.hasMinValue then
        { s with hasMinValue := true, minValue := old.min } else s
    if !a.newMaxValue && !old.hasMaxValue then
      { s with hasMaxValue := true, maxValue := old.max } else s
  else s

def Altering.continued (a : Altering) (old s : Sequence) : Except Failure Sequence :=
  let (nextValue, hasNext, s) : Int64 × Bool × Sequence :=
    if old.unused then
      let nextValue := old.currentValue + old.incrementBy
      (nextValue, true, { s with currentValue := nextValue - s.incrementBy })
    else
      let (nextValue, exhausted) := Sequence.addI64 old.currentValue s.incrementBy
      (nextValue, !exhausted, { s with exhausted := exhausted })
  if hasNext && a.newMinValue && nextValue < s.min then
    .error (sqlstate42601
      s!"MINVALUE ({s.min}) must not be greater than the next value ({nextValue})")
  else if hasNext && a.newMaxValue && nextValue > s.max then
    .error (sqlstate42601
      s!"MAXVALUE ({s.max}) must not be less than the next value ({nextValue})")
  else .ok s

def alterSequence (old : Sequence) (options : List SequenceGeneratorOption) :
    Except Failure Sequence := do
  let a := options.foldl alterOption ⟨old, none, false, false⟩
  let s := a.keepLimits old
  s.check
  match a.restart with
  | some (v, restartName) =>
      s.checkInRange restartName v
      pure { s with currentValue := v - s.incrementBy, exhausted := false, unused := true }
  | none => a.continued old s

/-! ## Identity columns -/

def exactNumericRange (t : DataType) : Int64 × Int64 :=
  if t.typ = .smallint then (-2 ^ 15, 2 ^ 15 - 1)
  else if t.typ = .integer then (-2 ^ 31, 2 ^ 31 - 1)
  else if t.typ.isExactDecimal ∧ t.size < 19 then
    let max := Int64.ofInt (10 ^ t.size)
    (-(max - 1), max - 1)
  else (Int64.minValue, Int64.maxValue)

def identityRange (t : DataType) (incrementBy : Int64) : Int64 × Int64 :=
  let (min, max) := exactNumericRange t
  if incrementBy > 0 then (1, max) else (min, -1)

def newBigintValue (x : Int64) : Value where
  typ := { typ := .bigint }
  v := some (.int x.toInt)
  fits := by
    simpa [Content.Fits, SqlType.isInteger, SqlType.intBits] using ⟨x.le_toInt, x.toInt_lt⟩

/-- A limit that is not given is the one of the type. -/
def withIdentityRange (t : DataType) (s : Sequence) : Sequence :=
  let (min, max) := identityRange t s.incrementBy
  let s := if s.hasMinValue then s else { s with hasMinValue := true, minValue := min }
  if s.hasMaxValue then s else { s with hasMaxValue := true, maxValue := max }

def checkIdentitySequence (t : DataType) (s : Sequence) : Except Failure Unit := do
  let (min, max) := exactNumericRange t
  for (name, value) in [("INCREMENT BY", s.incrementBy), ("MINVALUE", s.minValue),
      ("MAXVALUE", s.maxValue)] do
    if value < min ∨ value > max then
      throw (sqlstate42601 s!"{name} ({value}) is out of range for {t.str}")
  s.check

def newIdentitySequence (formats : FloatFormat) (columnName : Identifier) (t : DataType)
    (options : List SequenceGeneratorOption) : Except Failure Sequence := do
  if !(t.typ.isInteger || t.typ.isExactDecimal) || t.scale ≠ 0 then
    throw (sqlstate42601 (s!"identity column {columnName.subEntityName.str} must be an " ++
      s!"exact numeric with a scale of 0, not {t.str}"))
  checkSequenceOptions formats options
  let s := SequenceGeneratorDefinition.sequence { name := {}, options := options } columnName
  let (min, max) := identityRange t s.incrementBy
  let allOptions := options ++
    (if s.hasMinValue then [] else [minvalue (some (newBigintValue min))]) ++
    (if s.hasMaxValue then [] else [maxvalue (some (newBigintValue max))])
  let s := SequenceGeneratorDefinition.sequence { name := {}, options := allOptions } columnName
  checkIdentitySequence t s
  s.checkInRange "START WITH" s.startValue
  pure s

/-- ALTER COLUMN of an identity column. -/
def alterIdentitySequence (t : DataType) (old : Sequence)
    (options : List SequenceGeneratorOption) : Except Failure Sequence := do
  let s := withIdentityRange t (← alterSequence old options)
  checkIdentitySequence t s
  pure s

/-! ## Storage -/

namespace Sequence

/-- A `value` outside of an implicit limit of `s` is from a file in which the limit was the
one of a BIGINT. -/
def keepOldLimits (s sequence : Sequence) (value : Int64) : Sequence :=
  let sequence :=
    if !sequence.hasMinValue && value < s.min then
      { sequence with hasMinValue := true, minValue := Int64.minValue } else sequence
  if !sequence.hasMaxValue && value > s.max then
    { sequence with hasMaxValue := true, maxValue := Int64.maxValue } else sequence

def withOldImplicitLimits (s : Sequence) : Sequence :=
  let values := s.startValue :: (if s.unused then [] else [s.currentValue])
  values.foldl s.keepOldLimits s

/-- The value is stored by itself, so that NEXT VALUE FOR does not change the definition. -/
def withValueOf (s t : Sequence) : Sequence :=
  { s with currentValue := t.currentValue, exhausted := t.exhausted, unused := t.unused }

end Sequence

/-- A sequence generator by itself, or the one of an identity column. -/
inductive SequenceOwner where
  | external
  | identity (t : DataType)

namespace SequenceOwner

def create (formats : FloatFormat) (owner : SequenceOwner) (name : Identifier)
    (options : List SequenceGeneratorOption) : Except Failure Sequence :=
  match owner with
  | external => SequenceGeneratorDefinition.create formats { name := name, options := options } name
  | identity t => newIdentitySequence formats name t options

/-- The sequence that is made of the stored definition and value. -/
def read (owner : SequenceOwner) (s : Sequence) : Sequence :=
  match owner with
  | external => s.withOldImplicitLimits
  | identity _ => s

/-- What is stored after the next value was issued, and that value. -/
def nextValue (owner : SequenceOwner) (s : Sequence) : Except Failure (Sequence × Int64) := do
  let next ← (owner.read s).next
  pure (s.withValueOf next, next.currentValue)

def alter (formats : FloatFormat) (owner : SequenceOwner) (s : Sequence)
    (options : List SequenceGeneratorOption) : Except Failure Sequence := do
  checkSequenceOptions formats options
  match owner with
  | external => alterSequence (owner.read s) options
  | identity t => alterIdentitySequence t (owner.read s) options

end SequenceOwner

/-! ## Runs -/

inductive SequenceRequest where
  | nextValue
  | alter (options : List SequenceGeneratorOption)

/-- A request that fails changes nothing. -/
def orUnchanged (s : Sequence) :
    Except Failure (Sequence × Option Int64) → Except Failure (Option Int64) × Sequence
  | .ok (t, v) => (.ok v, t)
  | .error e => (.error e, s)

def SequenceOwner.respond (formats : FloatFormat) (owner : SequenceOwner) (s : Sequence) :
    SequenceRequest → Except Failure (Option Int64) × Sequence
  | .nextValue => orUnchanged s ((fun (t, v) => (t, some v)) <$> owner.nextValue s)
  | .alter options => orUnchanged s ((·, none) <$> owner.alter formats s options)

def SequenceOwner.generator (formats : FloatFormat) (owner : SequenceOwner) :
    Machine Sequence SequenceRequest (Except Failure (Option Int64)) :=
  ⟨owner.respond formats⟩

end Vsql
