import Vsql.Error

/-!
# Types and comparisons

The SQL types of columns and values, which types can be compared with each
other, and the truth of a comparison in three-valued logic.
-/

namespace Vsql

inductive SqlType where
  | bigint
  | boolean
  | character
  | doublePrecision
  | integer
  | real
  | smallint
  | varchar
  | date
  | timeWithoutTimeZone
  | timeWithTimeZone
  | timestampWithoutTimeZone
  | timestampWithTimeZone
  | decimal
  | numeric
  deriving DecidableEq, Repr

namespace SqlType

def str : SqlType → String
  | .bigint => "BIGINT"
  | .boolean => "BOOLEAN"
  | .character => "CHARACTER"
  | .doublePrecision => "DOUBLE PRECISION"
  | .integer => "INTEGER"
  | .real => "REAL"
  | .smallint => "SMALLINT"
  | .varchar => "CHARACTER VARYING"
  | .date => "DATE"
  | .timeWithoutTimeZone => "TIME WITHOUT TIME ZONE"
  | .timeWithTimeZone => "TIME WITH TIME ZONE"
  | .timestampWithoutTimeZone => "TIMESTAMP WITHOUT TIME ZONE"
  | .timestampWithTimeZone => "TIMESTAMP WITH TIME ZONE"
  | .numeric => "NUMERIC"
  | .decimal => "DECIMAL"

def isNumber : SqlType → Bool
  | .bigint | .doublePrecision | .integer | .real | .smallint | .decimal
  | .numeric => true
  | _ => false

def isString : SqlType → Bool
  | .character | .varchar => true
  | _ => false

def isDatetime : SqlType → Bool
  | .date | .timeWithoutTimeZone | .timeWithTimeZone
  | .timestampWithoutTimeZone | .timestampWithTimeZone => true
  | _ => false

def isInteger : SqlType → Bool
  | .bigint | .integer | .smallint => true
  | _ => false

def isApproximate : SqlType → Bool
  | .doublePrecision | .real => true
  | _ => false

def isExactDecimal : SqlType → Bool
  | .decimal | .numeric => true
  | _ => false

def hasTimeZone : SqlType → Bool
  | .timeWithTimeZone | .timestampWithTimeZone => true
  | _ => false

/-- A TIME has no date, so it wraps around midnight in another time zone. -/
def isTime : SqlType → Bool
  | .timeWithTimeZone | .timeWithoutTimeZone => true
  | _ => false

inductive DatetimeFields where
  | date
  | time
  | timestamp
  deriving DecidableEq, Repr

/-- The fields of a datetime type, with or without a time zone. -/
def datetimeFields : SqlType → DatetimeFields
  | .date => .date
  | .timeWithTimeZone | .timeWithoutTimeZone => .time
  | _ => .timestamp

def comparableTypes (a b : SqlType) : Bool :=
  (a.isNumber && b.isNumber) || (a.isString && b.isString) ||
    (a == .boolean && b == .boolean) || (a.isDatetime && b.isDatetime)

def isKeyComparable (a b : SqlType) : Bool :=
  if a.isDatetime && b.isDatetime then a.datetimeFields == b.datetimeFields
  else comparableTypes a b

/-- The same for types that can be compared as keys. -/
def keyType : SqlType → SqlType
  | .smallint | .integer | .bigint => .bigint
  | .real | .doublePrecision => .doublePrecision
  | .numeric | .decimal => .numeric
  | .character | .varchar => .varchar
  | typ => typ

def foreignKeyType (a b : SqlType) : SqlType :=
  if a.keyType = b.keyType then a.keyType
  else if a.isDatetime then
    if a.datetimeFields = .time then .timeWithTimeZone else .timestampWithTimeZone
  else if a.keyType = .doublePrecision ∨ b.keyType = .doublePrecision then
    .doublePrecision
  else .numeric

end SqlType

/-- `Type` in the source. -/
structure DataType where
  typ : SqlType
  size : Nat := 0
  scale : Nat := 0
  notNull : Bool := false
  deriving DecidableEq, Repr

def DataType.str (t : DataType) : String :=
  let s :=
    match t.typ with
    | .character | .varchar =>
        if t.size > 0 then s!"{t.typ.str}({t.size})" else t.typ.str
    | .timeWithoutTimeZone => s!"TIME({t.size}) WITHOUT TIME ZONE"
    | .timeWithTimeZone => s!"TIME({t.size}) WITH TIME ZONE"
    | .timestampWithoutTimeZone => s!"TIMESTAMP({t.size}) WITHOUT TIME ZONE"
    | .timestampWithTimeZone => s!"TIMESTAMP({t.size}) WITH TIME ZONE"
    | .numeric | .decimal =>
        if t.size = 0 then t.typ.str
        else if t.scale = 0 then s!"{t.typ.str}({t.size})"
        else s!"{t.typ.str}({t.size}, {t.scale})"
    | typ => typ.str
  if t.notNull then s ++ " NOT NULL" else s

/-- The most digits of a NUMERIC or DECIMAL. -/
def maxNumericPrecision : Nat := 1000

def DataType.numericPrecision (t : DataType) : Nat :=
  if t.size = 0 then maxNumericPrecision else t.size

/-! ## Truth -/

inductive Truth where
  | isFalse
  | isTrue
  | isUnknown
  deriving DecidableEq, Repr

def truthAnd (a b : Truth) : Truth :=
  if a = .isFalse ∨ b = .isFalse then .isFalse
  else if a = .isUnknown ∨ b = .isUnknown then .isUnknown
  else .isTrue

def truthOr (a b : Truth) : Truth :=
  if a = .isTrue ∨ b = .isTrue then .isTrue
  else if a = .isUnknown ∨ b = .isUnknown then .isUnknown
  else .isFalse

def truthNot : Truth → Truth
  | .isTrue => .isFalse
  | .isFalse => .isTrue
  | .isUnknown => .isUnknown

theorem truthAnd_eq_isTrue {a b : Truth} :
    truthAnd a b = .isTrue ↔ a = .isTrue ∧ b = .isTrue := by
  cases a <;> cases b <;> decide

/-! ## Comparison -/

inductive CompareResult where
  | isUnknown
  | isLess
  | isEqual
  | isGreater
  deriving DecidableEq, Repr

/-- The result of comparing the operands the other way around. -/
def CompareResult.swap : CompareResult → CompareResult
  | .isLess => .isGreater
  | .isGreater => .isLess
  | result => result

inductive ComparisonOperator where
  | equal
  | notEqual
  | lessThan
  | greaterThan
  | lessThanOrEqual
  | greaterThanOrEqual
  deriving DecidableEq, Repr

namespace ComparisonOperator

def truth (op : ComparisonOperator) (cmp : CompareResult) : Truth :=
  if cmp = .isUnknown then .isUnknown
  else
    let result : Bool :=
      match op with
      | .equal => cmp == .isEqual
      | .notEqual => cmp != .isEqual
      | .greaterThan => cmp == .isGreater
      | .lessThan => cmp == .isLess
      | .greaterThanOrEqual => cmp == .isGreater || cmp == .isEqual
      | .lessThanOrEqual => cmp == .isLess || cmp == .isEqual
    if result then .isTrue else .isFalse

/-- The operator when the sides are swapped. -/
def reverse : ComparisonOperator → ComparisonOperator
  | .lessThan => .greaterThan
  | .greaterThan => .lessThan
  | .lessThanOrEqual => .greaterThanOrEqual
  | .greaterThanOrEqual => .lessThanOrEqual
  | op => op

theorem truth_reverse (op : ComparisonOperator) (cmp : CompareResult) :
    op.reverse.truth cmp.swap = op.truth cmp := by
  cases op <;> cases cmp <;> rfl

end ComparisonOperator

/-- `X >= Y AND X <= Z`, given the comparisons of `X` with `Y` and with `Z`. -/
def betweenAsymmetric (lower upper : CompareResult) : Truth :=
  let atLeast : Truth :=
    match lower with
    | .isUnknown => .isUnknown
    | .isLess => .isFalse
    | _ => .isTrue
  let atMost : Truth :=
    match upper with
    | .isUnknown => .isUnknown
    | .isGreater => .isFalse
    | _ => .isTrue
  truthAnd atLeast atMost

theorem betweenAsymmetric_eq (lower upper : CompareResult) :
    betweenAsymmetric lower upper =
      truthAnd (ComparisonOperator.greaterThanOrEqual.truth lower)
        (ComparisonOperator.lessThanOrEqual.truth upper) := by
  cases lower <;> cases upper <;> rfl

end Vsql
