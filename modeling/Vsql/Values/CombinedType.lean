import Vsql.Values.Fraction

/-!
# Combining types

The rows of a VALUES, the arms of a CASE and the arguments of COALESCE are converted to one
type, which is combined from theirs one at a time.  The result does not depend on the order.
-/

namespace Vsql

open Foundation

/-! ## The combined type -/

/-- The category of a type, and its place among the types of the category. -/
def SqlType.supertype : SqlType → Nat × Nat
  | .boolean => (0, 0)
  | .character | .varchar => (1, 0)
  | .smallint => (2, 0)
  | .integer => (2, 1)
  | .bigint => (2, 2)
  | .numeric => (2, 3)
  | .decimal => (2, 4)
  | .real => (3, 0)
  | .doublePrecision => (3, 1)
  | .date | .timeWithoutTimeZone | .timeWithTimeZone | .timestampWithoutTimeZone
  | .timestampWithTimeZone => (4, 0)

def mostSpecificType (t1 t2 : DataType) : Except Failure DataType :=
  let (t1Category, t1Supertype) := t1.typ.supertype
  let (t2Category, t2Supertype) := t2.typ.supertype
  if t1Category = t2Category then
    if t1Supertype > t2Supertype then .ok { typ := t1.typ } else .ok { typ := t2.typ }
  else .error (sqlstate42601 s!"no supertype of both {t1.str} and {t2.str}")

/-- `integer_digits`, which is negative for a NUMERIC(1, 2). -/
def DataType.integerDigits (t : DataType) : Int :=
  match t.typ with
  | .smallint => 5
  | .integer => 10
  | .bigint => 19
  | _ => t.size - t.scale

/-- The types that can be combined with each other. -/
inductive TypeCategory where
  | string
  | number
  | boolean
  | date
  | time
  | timestamp
  deriving DecidableEq, Repr

def SqlType.category : SqlType → TypeCategory
  | .character | .varchar => .string
  | .boolean => .boolean
  | .date => .date
  | .timeWithoutTimeZone | .timeWithTimeZone => .time
  | .timestampWithoutTimeZone | .timestampWithTimeZone => .timestamp
  | .smallint | .integer | .bigint | .numeric | .decimal | .real | .doublePrecision => .number

/-- A NUMERIC or DECIMAL without a size has no limit. -/
def DataType.isUnlimited (t : DataType) : Bool := t.typ.isExactDecimal && t.size == 0

/-- The longest string, which is only fixed-length if both are.  A size of 0 means that there
is no maximum. -/
def combineStrings (t1 t2 : DataType) : DataType :=
  let size := if t1.size = 0 ∨ t2.size = 0 then 0 else max t1.size t2.size
  if t1.typ = .character ∧ t2.typ = .character then { typ := .character, size := size }
  else { typ := .varchar, size := size }

def combineApproximates (t1 t2 : DataType) : DataType :=
  if t1.typ = .real ∧ t2.typ = .real then { typ := .real } else { typ := .doublePrecision }

/-- The digits before and after the point that are enough for both types. -/
def combinedDigits (t1 t2 : DataType) : Int :=
  max t1.integerDigits t2.integerDigits + max t1.scale t2.scale

/-- Exact numbers, of which one is a NUMERIC or DECIMAL. -/
def combineDecimals (t1 t2 : DataType) : DataType :=
  let typ : SqlType := if t1.typ = .decimal ∨ t2.typ = .decimal then .decimal else .numeric
  if t1.isUnlimited ∨ t2.isUnlimited then { typ := typ }
  else
    let size := min (combinedDigits t1 t2) maxNumericPrecision
    { typ := typ, size := size.toNat, scale := max t1.scale t2.scale }

/-- The largest precision, with a time zone if one of them has one. -/
def combineDatetimes (withTimeZone withoutTimeZone : SqlType) (t1 t2 : DataType) : DataType :=
  let typ := if t1.typ.hasTimeZone ∨ t2.typ.hasTimeZone then withTimeZone else withoutTimeZone
  { typ := typ, size := max t1.size t2.size }

def combineTypes (t1 t2 : DataType) : Option DataType :=
  if t1.typ.isString ∧ t2.typ.isString then some (combineStrings t1 t2)
  else if t1.typ.isNumber ∧ t2.typ.isNumber ∧ (t1.typ.isApproximate ∨ t2.typ.isApproximate) then
    some (combineApproximates t1 t2)
  else if t1.typ.isNumber ∧ t2.typ.isNumber then
    if ¬t1.typ.isExactDecimal ∧ ¬t2.typ.isExactDecimal then (mostSpecificType t1 t2).toOption
    else some (combineDecimals t1 t2)
  else if t1.typ = .boolean ∧ t2.typ = .boolean then some { typ := .boolean }
  else if t1.typ = .date ∧ t2.typ = .date then some { typ := .date }
  else if t1.typ.category = .time ∧ t2.typ.category = .time then
    some (combineDatetimes .timeWithTimeZone .timeWithoutTimeZone t1 t2)
  else if t1.typ.category = .timestamp ∧ t2.typ.category = .timestamp then
    some (combineDatetimes .timestampWithTimeZone .timestampWithoutTimeZone t1 t2)
  else none

/-- The types of the expressions, combined from the first one on. -/
def combineAll : List DataType → Option DataType
  | [] => none
  | t :: ts => ts.foldlM combineTypes { t with notNull := false }

/-- The types that an expression can have: only some of them have a size, and only a NUMERIC
or DECIMAL has a scale. -/
structure DataType.OfExpression (t : DataType) : Prop where
  size : t.typ.isInteger ∨ t.typ = .real ∨ t.typ = .boolean ∨ t.typ = .date → t.size = 0
  scale : t.typ.isExactDecimal = false → t.scale = 0

/-! ## The categories -/

namespace SqlType

variable (typ : SqlType)

theorem isString_iff_category : typ.isString = true ↔ typ.category = .string := by
  cases typ <;> decide

theorem isNumber_iff_category : typ.isNumber = true ↔ typ.category = .number := by
  cases typ <;> decide

theorem eq_boolean_iff : typ = .boolean ↔ typ.category = .boolean := by
  cases typ <;> decide

theorem eq_date_iff : typ = .date ↔ typ.category = .date := by
  cases typ <;> decide

theorem isInteger_cases {typ : SqlType} (h : typ.isInteger) :
    typ = .smallint ∨ typ = .integer ∨ typ = .bigint := by
  revert h
  cases typ <;> decide

end SqlType

section Category

open SqlType (isString_iff_category isNumber_iff_category eq_boolean_iff eq_date_iff)

variable {t1 t2 c : DataType}

theorem combineTypes_string (h1 : t1.typ.category = .string) (h2 : t2.typ.category = .string) :
    combineTypes t1 t2 = some (combineStrings t1 t2) := by
  simp [combineTypes, isString_iff_category, h1, h2]

theorem combineTypes_boolean (h1 : t1.typ.category = .boolean)
    (h2 : t2.typ.category = .boolean) : combineTypes t1 t2 = some { typ := .boolean } := by
  simp [combineTypes, isString_iff_category, isNumber_iff_category, eq_boolean_iff, h1, h2]

theorem combineTypes_date (h1 : t1.typ.category = .date) (h2 : t2.typ.category = .date) :
    combineTypes t1 t2 = some { typ := .date } := by
  simp [combineTypes, isString_iff_category, isNumber_iff_category, eq_boolean_iff, eq_date_iff, h1,
    h2]

theorem combineTypes_time (h1 : t1.typ.category = .time) (h2 : t2.typ.category = .time) :
    combineTypes t1 t2 =
      some (combineDatetimes .timeWithTimeZone .timeWithoutTimeZone t1 t2) := by
  simp [combineTypes, isString_iff_category, isNumber_iff_category, eq_boolean_iff, eq_date_iff, h1,
    h2]

theorem combineTypes_timestamp (h1 : t1.typ.category = .timestamp)
    (h2 : t2.typ.category = .timestamp) :
    combineTypes t1 t2 =
      some (combineDatetimes .timestampWithTimeZone .timestampWithoutTimeZone t1 t2) := by
  simp [combineTypes, isString_iff_category, isNumber_iff_category, eq_boolean_iff, eq_date_iff, h1,
    h2]

theorem combineTypes_of_ne (h : t1.typ.category ≠ t2.typ.category) :
    combineTypes t1 t2 = none := by
  have hcategory : ∀ category, t1.typ.category = category → ¬t2.typ.category = category :=
    fun category h1 h2 => h (h1.trans h2.symm)
  have hnumber : ∀ p : Prop,
      ¬(t1.typ.category = .number ∧ t2.typ.category = .number ∧ p) :=
    fun p hboth => hcategory _ hboth.1 hboth.2.1
  have hboth : ∀ category, ¬(t1.typ.category = category ∧ t2.typ.category = category) :=
    fun category hboth => hcategory _ hboth.1 hboth.2
  simp only [combineTypes, isString_iff_category, isNumber_iff_category,
    eq_boolean_iff, eq_date_iff, hnumber, hboth, if_false]

/-! ## Numbers -/

theorem combineTypes_approximate (h1 : t1.typ.category = .number)
    (h2 : t2.typ.category = .number) (h : t1.typ.isApproximate ∨ t2.typ.isApproximate) :
    combineTypes t1 t2 = some (combineApproximates t1 t2) := by
  simp [combineTypes, isString_iff_category, isNumber_iff_category, h1, h2, h]

theorem combineTypes_integer (h1 : t1.typ.isInteger) (h2 : t2.typ.isInteger) :
    combineTypes t1 t2 =
      some { typ := if t1.typ.supertype.2 > t2.typ.supertype.2 then t1.typ else t2.typ } := by
  obtain h1 | h1 | h1 := SqlType.isInteger_cases h1 <;>
    obtain h2 | h2 | h2 := SqlType.isInteger_cases h2 <;>
    simp [combineTypes, mostSpecificType, h1, h2, SqlType.supertype, SqlType.category,
      SqlType.isApproximate, SqlType.isExactDecimal] <;> rfl

/-- An exact number: an integer, a NUMERIC or a DECIMAL. -/
def SqlType.isExact (typ : SqlType) : Bool := typ.isInteger || typ.isExactDecimal

theorem SqlType.isExact_eq (typ : SqlType) (h : typ.category = .number) :
    typ.isExact = !typ.isApproximate := by
  revert h
  cases typ <;> decide

theorem SqlType.isExactDecimal_category {typ : SqlType} (h : typ.isExact) :
    typ.category = .number ∧ typ.isApproximate = false := by
  revert h
  cases typ <;> decide

theorem combineTypes_decimal (h1 : t1.typ.isExact) (h2 : t2.typ.isExact)
    (h : t1.typ.isExactDecimal ∨ t2.typ.isExactDecimal) :
    combineTypes t1 t2 = some (combineDecimals t1 t2) := by
  have hnot : ¬(¬t1.typ.isExactDecimal ∧ ¬t2.typ.isExactDecimal) := by
    rintro ⟨hnot1, hnot2⟩
    exact h.elim hnot1 hnot2
  simp only [combineTypes, SqlType.isString_iff_category, SqlType.isNumber_iff_category,
    SqlType.isExactDecimal_category h1, SqlType.isExactDecimal_category h2, if_neg hnot]
  simp

theorem combineTypes_number (h1 : t1.typ.category = .number) (h2 : t2.typ.category = .number) :
    ((t1.typ.isApproximate ∨ t2.typ.isApproximate) ∧
        combineTypes t1 t2 = some (combineApproximates t1 t2)) ∨
      (t1.typ.isInteger ∧ t2.typ.isInteger ∧ combineTypes t1 t2 =
        some { typ := if t1.typ.supertype.2 > t2.typ.supertype.2 then t1.typ else t2.typ }) ∨
      (t1.typ.isExact ∧ t2.typ.isExact ∧ (t1.typ.isExactDecimal ∨ t2.typ.isExactDecimal) ∧
        combineTypes t1 t2 = some (combineDecimals t1 t2)) := by
  by_cases happrox : t1.typ.isApproximate ∨ t2.typ.isApproximate
  · exact .inl ⟨happrox, combineTypes_approximate h1 h2 happrox⟩
  · rw [not_or, Bool.not_eq_true, Bool.not_eq_true] at happrox
    have hexact1 : t1.typ.isExact := by rw [SqlType.isExact_eq _ h1, happrox.1]; rfl
    have hexact2 : t2.typ.isExact := by rw [SqlType.isExact_eq _ h2, happrox.2]; rfl
    right
    by_cases hdecimal : t1.typ.isExactDecimal ∨ t2.typ.isExactDecimal
    · exact .inr ⟨hexact1, hexact2, hdecimal, combineTypes_decimal hexact1 hexact2 hdecimal⟩
    · rw [not_or] at hdecimal
      have hint1 : t1.typ.isInteger := by simpa [SqlType.isExact, hdecimal.1] using hexact1
      have hint2 : t2.typ.isInteger := by simpa [SqlType.isExact, hdecimal.2] using hexact2
      exact .inl ⟨hint1, hint2, combineTypes_integer hint1 hint2⟩

end Category

/-! ## The order of the types -/

theorem combineStrings_comm (t1 t2 : DataType) : combineStrings t1 t2 = combineStrings t2 t1 := by
  simp only [combineStrings, max_comm t1.size, or_comm (a := t1.size = 0),
    and_comm (a := t1.typ = .character)]

theorem combineApproximates_comm (t1 t2 : DataType) :
    combineApproximates t1 t2 = combineApproximates t2 t1 := by
  simp only [combineApproximates, and_comm (a := t1.typ = .real)]

theorem combineDecimals_comm (t1 t2 : DataType) :
    combineDecimals t1 t2 = combineDecimals t2 t1 := by
  simp only [combineDecimals, combinedDigits, max_comm t1.scale, max_comm t1.integerDigits,
    or_comm (a := t1.typ = .decimal), or_comm (a := t1.isUnlimited = true)]

theorem combineDatetimes_comm (withTimeZone withoutTimeZone : SqlType) (t1 t2 : DataType) :
    combineDatetimes withTimeZone withoutTimeZone t1 t2 =
      combineDatetimes withTimeZone withoutTimeZone t2 t1 := by
  simp only [combineDatetimes, max_comm t1.size, or_comm (a := t1.typ.hasTimeZone = true)]

/-- The larger one of two integer types. -/
theorem supertype_comm {a b : SqlType} (ha : a.isInteger) (hb : b.isInteger) :
    (if a.supertype.2 > b.supertype.2 then a else b) =
      if b.supertype.2 > a.supertype.2 then b else a := by
  obtain rfl | rfl | rfl := SqlType.isInteger_cases ha <;>
    obtain rfl | rfl | rfl := SqlType.isInteger_cases hb <;> rfl

theorem combineTypes_comm (t1 t2 : DataType) : combineTypes t1 t2 = combineTypes t2 t1 := by
  by_cases h : t1.typ.category = t2.typ.category
  · cases h2 : t2.typ.category <;> rw [h2] at h
    case string =>
      rw [combineTypes_string h h2, combineTypes_string h2 h, combineStrings_comm]
    case number =>
      obtain ⟨happrox, heq⟩ | ⟨hint1, hint2, heq⟩ | ⟨hexact1, hexact2, hdecimal, heq⟩ :=
        combineTypes_number h h2
      · rw [heq, combineTypes_approximate h2 h happrox.symm, combineApproximates_comm]
      · rw [heq, combineTypes_integer hint2 hint1, supertype_comm hint1 hint2]
      · rw [heq, combineTypes_decimal hexact2 hexact1 hdecimal.symm, combineDecimals_comm]
    case boolean => rw [combineTypes_boolean h h2, combineTypes_boolean h2 h]
    case date => rw [combineTypes_date h h2, combineTypes_date h2 h]
    case time => rw [combineTypes_time h h2, combineTypes_time h2 h, combineDatetimes_comm]
    case timestamp =>
      rw [combineTypes_timestamp h h2, combineTypes_timestamp h2 h, combineDatetimes_comm]
  · rw [combineTypes_of_ne h, combineTypes_of_ne (Ne.symm h)]

/-! ## Three types -/

theorem typ_combineStrings {t u : DataType} :
    (combineStrings t u).typ = .character ↔ t.typ = .character ∧ u.typ = .character := by
  unfold combineStrings
  by_cases h : t.typ = .character ∧ u.typ = .character <;> simp [h]

theorem size_combineStrings (t u : DataType) :
    (combineStrings t u).size = if t.size = 0 ∨ u.size = 0 then 0 else max t.size u.size := by
  unfold combineStrings
  by_cases h : t.typ = .character ∧ u.typ = .character <;> simp [h]

/-- The length of three strings, one of which may have no maximum. -/
theorem stringSize_assoc (a b c : Nat) :
    (if (if a = 0 ∨ b = 0 then 0 else max a b) = 0 ∨ c = 0 then 0
      else max (if a = 0 ∨ b = 0 then 0 else max a b) c) =
    if a = 0 ∨ (if b = 0 ∨ c = 0 then 0 else max b c) = 0 then 0
      else max a (if b = 0 ∨ c = 0 then 0 else max b c) := by
  obtain rfl | ha := Nat.eq_zero_or_pos a
  · simp
  · obtain rfl | hb := Nat.eq_zero_or_pos b
    · simp
    · obtain rfl | hc := Nat.eq_zero_or_pos c
      · simp
      · have hab : max a b ≠ 0 := by omega
        have hbc : max b c ≠ 0 := by omega
        simp [ha.ne', hb.ne', hc.ne', hab, hbc, max_assoc]

theorem combineStrings_assoc (t1 t2 t3 : DataType) :
    combineStrings (combineStrings t1 t2) t3 = combineStrings t1 (combineStrings t2 t3) := by
  simp only [combineStrings.eq_1 (combineStrings t1 t2),
    combineStrings.eq_1 t1 (combineStrings t2 t3), typ_combineStrings, size_combineStrings,
    and_assoc, stringSize_assoc]

theorem combineDatetimes_assoc {withTimeZone withoutTimeZone : SqlType}
    (hwith : withTimeZone.hasTimeZone = true) (hwithout : withoutTimeZone.hasTimeZone = false)
    (t1 t2 t3 : DataType) :
    combineDatetimes withTimeZone withoutTimeZone
        (combineDatetimes withTimeZone withoutTimeZone t1 t2) t3 =
      combineDatetimes withTimeZone withoutTimeZone t1
        (combineDatetimes withTimeZone withoutTimeZone t2 t3) := by
  have hzone : ∀ t u : DataType,
      (combineDatetimes withTimeZone withoutTimeZone t u).typ.hasTimeZone = true ↔
        t.typ.hasTimeZone = true ∨ u.typ.hasTimeZone = true := by
    intro t u
    unfold combineDatetimes
    by_cases h : t.typ.hasTimeZone = true ∨ u.typ.hasTimeZone = true <;>
      simp [h, hwith, hwithout]
  simp only [combineDatetimes.eq_1 _ _ (combineDatetimes _ _ t1 t2),
    combineDatetimes.eq_1 _ _ t1 (combineDatetimes _ _ t2 t3), hzone, or_assoc]
  simp only [combineDatetimes, max_assoc]

/-! ## Three numbers -/

section Numbers

variable {t1 t2 t3 c : DataType}

theorem combineApproximates_typ_eq_real :
    (combineApproximates t1 t2).typ = .real ↔ t1.typ = .real ∧ t2.typ = .real := by
  unfold combineApproximates
  by_cases h : t1.typ = .real ∧ t2.typ = .real <;> simp [h]

/-- Numbers can be combined, and the result is approximate if one of them is. -/
theorem combineTypes_number_some (h1 : t1.typ.category = .number)
    (h2 : t2.typ.category = .number) :
    ∃ c, combineTypes t1 t2 = some c ∧ c.typ.category = .number ∧
      (c.typ.isApproximate ↔ t1.typ.isApproximate ∨ t2.typ.isApproximate) ∧
      (c.typ = .real ↔ t1.typ = .real ∧ t2.typ = .real) := by
  obtain ⟨happrox, heq⟩ | ⟨hint1, hint2, heq⟩ | ⟨hexact1, hexact2, -, heq⟩ :=
    combineTypes_number h1 h2
  · refine ⟨_, heq, ?_, ?_, combineApproximates_typ_eq_real⟩ <;> unfold combineApproximates
    · split_ifs <;> rfl
    · split_ifs
      · exact iff_of_true rfl happrox
      · exact iff_of_true rfl happrox
  · refine ⟨_, heq, ?_⟩
    obtain h1 | h1 | h1 := SqlType.isInteger_cases hint1 <;>
      obtain h2 | h2 | h2 := SqlType.isInteger_cases hint2 <;> rw [h1, h2] <;> decide
  · have htyp :
        (combineDecimals t1 t2).typ = .decimal ∨ (combineDecimals t1 t2).typ = .numeric := by
      unfold combineDecimals
      by_cases hdec : t1.typ = .decimal ∨ t2.typ = .decimal <;>
        by_cases hunl : t1.isUnlimited ∨ t2.isUnlimited <;> simp [hdec, hunl]
    have hreal : t1.typ ≠ .real := by
      intro hreal
      rw [hreal] at hexact1
      cases hexact1
    refine ⟨_, heq, ?_⟩
    rw [(SqlType.isExactDecimal_category hexact1).2, (SqlType.isExactDecimal_category hexact2).2]
    obtain htyp | htyp := htyp <;> rw [htyp] <;> simp [hreal] <;> decide

theorem combineApproximates_assoc (h1 : t1.typ.category = .number)
    (h2 : t2.typ.category = .number) (h3 : t3.typ.category = .number)
    (h : t1.typ.isApproximate ∨ t2.typ.isApproximate ∨ t3.typ.isApproximate) :
    (combineTypes t1 t2).bind (combineTypes · t3) =
      (combineTypes t2 t3).bind (combineTypes t1) := by
  obtain ⟨c12, heq12, hc12, happrox12, hreal12⟩ := combineTypes_number_some h1 h2
  obtain ⟨c23, heq23, hc23, happrox23, hreal23⟩ := combineTypes_number_some h2 h3
  rw [heq12, heq23, Option.bind_some, Option.bind_some,
    combineTypes_approximate hc12 h3 (by rw [happrox12, or_assoc]; exact h),
    combineTypes_approximate h1 hc23 (by rw [happrox23]; exact h)]
  simp only [combineApproximates, hreal12, hreal23, and_assoc]

theorem combineIntegers_assoc (h1 : t1.typ.isInteger) (h2 : t2.typ.isInteger)
    (h3 : t3.typ.isInteger) :
    (combineTypes t1 t2).bind (combineTypes · t3) =
      (combineTypes t2 t3).bind (combineTypes t1) := by
  have hlarger : ∀ {a b : SqlType}, a.isInteger → b.isInteger →
      (if a.supertype.2 > b.supertype.2 then a else b).isInteger := by
    intro a b ha hb
    split_ifs
    · exact ha
    · exact hb
  rw [combineTypes_integer h1 h2, combineTypes_integer h2 h3, Option.bind_some,
    Option.bind_some, combineTypes_integer (hlarger h1 h2) h3,
    combineTypes_integer h1 (hlarger h2 h3)]
  obtain h1 | h1 | h1 := SqlType.isInteger_cases h1 <;>
    obtain h2 | h2 | h2 := SqlType.isInteger_cases h2 <;>
    obtain h3 | h3 | h3 := SqlType.isInteger_cases h3 <;> rw [h1, h2, h3] <;> rfl

/-- What the combined type of two exact numbers is. -/
structure ExactJoin (t1 t2 c : DataType) : Prop where
  exact : c.typ.isExact
  isExactDecimal : c.typ.isExactDecimal ↔ t1.typ.isExactDecimal ∨ t2.typ.isExactDecimal
  decimal : c.typ = .decimal ↔ t1.typ = .decimal ∨ t2.typ = .decimal
  isUnlimited : c.isUnlimited ↔ t1.isUnlimited ∨ t2.isUnlimited
  scale : c.isUnlimited = false → c.scale = max t1.scale t2.scale
  digits : c.isUnlimited = false →
    c.integerDigits = max t1.integerDigits t2.integerDigits ∨
      c.integerDigits + c.scale = maxNumericPrecision ∧
        c.integerDigits ≤ max t1.integerDigits t2.integerDigits

theorem integerDigits_of_decimal (h : t1.typ.isExactDecimal) :
    t1.integerDigits = t1.size - t1.scale := by
  unfold DataType.integerDigits
  obtain htyp | htyp := SqlType.isExactDecimal_iff.mp h <;> rw [htyp]

theorem five_le_integerDigits (h : t1.typ.isInteger) : 5 ≤ t1.integerDigits := by
  unfold DataType.integerDigits
  revert h
  cases t1.typ <;> simp [SqlType.isInteger]

/-- A type with a limit has at least one digit. -/
theorem integerDigits_add_scale_pos (h : t1.typ.isExact) (hlimit : t1.isUnlimited = false) :
    0 < t1.integerDigits + t1.scale := by
  by_cases hdecimal : t1.typ.isExactDecimal
  · have hsize : t1.size ≠ 0 := by simpa [DataType.isUnlimited, hdecimal] using hlimit
    rw [integerDigits_of_decimal hdecimal]
    omega
  · have hint : t1.typ.isInteger := by simpa [SqlType.isExact, hdecimal] using h
    have hfive := five_le_integerDigits hint
    omega

theorem exactJoin_combineDecimals (h1 : t1.typ.isExact)
    (h : t1.typ.isExactDecimal ∨ t2.typ.isExactDecimal) :
    ExactJoin t1 t2 (combineDecimals t1 t2) := by
  have htyp : (combineDecimals t1 t2).typ =
      if t1.typ = .decimal ∨ t2.typ = .decimal then .decimal else .numeric := by
    unfold combineDecimals
    by_cases hunl : t1.isUnlimited ∨ t2.isUnlimited <;> simp [hunl]
  have hdecimal : (combineDecimals t1 t2).typ.isExactDecimal := by
    rw [htyp]
    split_ifs <;> rfl
  have hlimited : ¬(t1.isUnlimited ∨ t2.isUnlimited) →
      ((combineDecimals t1 t2).size : Int) = min (combinedDigits t1 t2) maxNumericPrecision ∧
        (combineDecimals t1 t2).scale = max t1.scale t2.scale ∧
        0 < (combineDecimals t1 t2).size := by
    intro hunl
    have hpos : 0 < combinedDigits t1 t2 := by
      rw [not_or, Bool.not_eq_true] at hunl
      have hpos1 := integerDigits_add_scale_pos h1 hunl.1
      simp only [combinedDigits]
      omega
    have hmin : 0 < min (combinedDigits t1 t2) maxNumericPrecision :=
      lt_min hpos (by decide)
    simp only [combineDecimals, hunl, if_false]
    exact ⟨Int.toNat_of_nonneg hmin.le, trivial, Int.pos_iff_toNat_pos.mp hmin⟩
  have hunlimited : (combineDecimals t1 t2).isUnlimited ↔ t1.isUnlimited ∨ t2.isUnlimited := by
    by_cases hunl : t1.isUnlimited ∨ t2.isUnlimited
    · have hsize : (combineDecimals t1 t2).size = 0 := by
        unfold combineDecimals
        simp [hunl]
      exact iff_of_true (by simp [DataType.isUnlimited, hdecimal, hsize]) hunl
    · have hsize := (hlimited hunl).2.2
      exact iff_of_false (by simp [DataType.isUnlimited, hdecimal, hsize.ne']) hunl
  refine ⟨by simp [SqlType.isExact, hdecimal], by simp [hdecimal, h], ?_, hunlimited, ?_, ?_⟩
  · rw [htyp]
    by_cases hdec : t1.typ = .decimal ∨ t2.typ = .decimal <;> simp [hdec]
  · intro hlimit
    exact (hlimited (by rw [← hunlimited, hlimit]; simp)).2.1
  · intro hlimit
    obtain ⟨hsize, hscale, -⟩ := hlimited (by rw [← hunlimited, hlimit]; simp)
    rw [integerDigits_of_decimal hdecimal, hsize, hscale]
    simp only [combinedDigits]
    omega

theorem exactJoin_combineTypes (h1 : t1.typ.isExact) (h2 : t2.typ.isExact)
    (ht1 : t1.OfExpression) (ht2 : t2.OfExpression) :
    ∃ c, combineTypes t1 t2 = some c ∧ ExactJoin t1 t2 c := by
  by_cases h : t1.typ.isExactDecimal ∨ t2.typ.isExactDecimal
  · exact ⟨_, combineTypes_decimal h1 h2 h, exactJoin_combineDecimals h1 h⟩
  · rw [not_or, Bool.not_eq_true, Bool.not_eq_true] at h
    have hint1 : t1.typ.isInteger := by simpa [SqlType.isExact, h.1] using h1
    have hint2 : t2.typ.isInteger := by simpa [SqlType.isExact, h.2] using h2
    have hscale1 := ht1.scale h.1
    have hscale2 := ht2.scale h.2
    refine ⟨_, combineTypes_integer hint1 hint2, ?_⟩
    obtain h1 | h1 | h1 := SqlType.isInteger_cases hint1 <;>
      obtain h2 | h2 | h2 := SqlType.isInteger_cases hint2 <;>
      constructor <;>
      simp [h1, h2, hscale1, hscale2, SqlType.supertype, SqlType.isExact, SqlType.isInteger,
        SqlType.isExactDecimal, DataType.isUnlimited, DataType.integerDigits]

/-- A precision that was cut is cut again, however many digits a third type has. -/
theorem ExactJoin.min_digits (h : ExactJoin t1 t2 c) (hlimit : c.isUnlimited = false)
    (digits : Int) (scale : Nat) :
    min (max c.integerDigits digits + (max c.scale scale : Nat)) (maxNumericPrecision : Int) =
      min (max (max t1.integerDigits t2.integerDigits) digits + (max c.scale scale : Nat))
        (maxNumericPrecision : Int) := by
  obtain hdigits | ⟨hcut, hle⟩ := h.digits hlimit
  · rw [hdigits]
  · have hscale : (c.scale : Int) ≤ (max c.scale scale : Nat) := by
      exact_mod_cast le_max_left c.scale scale
    have hleft : (maxNumericPrecision : Int) ≤
        max c.integerDigits digits + (max c.scale scale : Nat) := by
      rw [← hcut]
      exact add_le_add (le_max_left _ _) hscale
    rw [min_eq_right hleft, min_eq_right]
    exact hleft.trans (add_le_add (max_le_max_right _ hle) le_rfl)

/-- Cutting the precision of two types before that of all three changes nothing. -/
theorem combineDecimals_assoc {c12 c23 : DataType} (h12 : ExactJoin t1 t2 c12)
    (h23 : ExactJoin t2 t3 c23) :
    combineDecimals c12 t3 = combineDecimals t1 c23 := by
  have htyp : (c12.typ = .decimal ∨ t3.typ = .decimal) ↔
      (t1.typ = .decimal ∨ c23.typ = .decimal) := by
    rw [h12.decimal, h23.decimal, or_assoc]
  have hunlimited : (c12.isUnlimited ∨ t3.isUnlimited) ↔
      (t1.isUnlimited ∨ c23.isUnlimited) := by
    rw [h12.isUnlimited, h23.isUnlimited, or_assoc]
  simp only [combineDecimals, htyp, hunlimited]
  by_cases hunl : t1.isUnlimited ∨ c23.isUnlimited
  · simp only [hunl, if_true]
  · have hunl' := hunl
    rw [← hunlimited, not_or, Bool.not_eq_true] at hunl'
    rw [not_or, Bool.not_eq_true, Bool.not_eq_true] at hunl
    have hscale : max c12.scale t3.scale = max t1.scale c23.scale := by
      rw [h12.scale hunl'.1, h23.scale hunl.2, max_assoc]
    have hsize : min (combinedDigits c12 t3) maxNumericPrecision =
        min (combinedDigits t1 c23) maxNumericPrecision := by
      have hleft := h12.min_digits hunl'.1 t3.integerDigits t3.scale
      have hright := h23.min_digits hunl.2 t1.integerDigits t1.scale
      rw [max_comm c23.integerDigits, max_comm c23.scale, max_comm _ t1.integerDigits,
        ← max_assoc, ← hscale] at hright
      rw [combinedDigits, combinedDigits, ← hscale, hleft, hright]
    simp only [hunl, hscale, hsize]

end Numbers

theorem combineTypes_number_assoc {t1 t2 t3 : DataType} (h1 : t1.OfExpression)
    (h2 : t2.OfExpression) (h3 : t3.OfExpression) (hc1 : t1.typ.category = .number)
    (hc2 : t2.typ.category = .number) (hc3 : t3.typ.category = .number) :
    (combineTypes t1 t2).bind (combineTypes · t3) =
      (combineTypes t2 t3).bind (combineTypes t1) := by
  by_cases happrox : t1.typ.isApproximate ∨ t2.typ.isApproximate ∨ t3.typ.isApproximate
  · exact combineApproximates_assoc hc1 hc2 hc3 happrox
  · simp only [not_or, Bool.not_eq_true] at happrox
    have hexact1 : t1.typ.isExact := by rw [SqlType.isExact_eq _ hc1, happrox.1]; rfl
    have hexact2 : t2.typ.isExact := by rw [SqlType.isExact_eq _ hc2, happrox.2.1]; rfl
    have hexact3 : t3.typ.isExact := by rw [SqlType.isExact_eq _ hc3, happrox.2.2]; rfl
    by_cases hdecimal : t1.typ.isExactDecimal ∨ t2.typ.isExactDecimal ∨ t3.typ.isExactDecimal
    · obtain ⟨c12, heq12, h12⟩ := exactJoin_combineTypes hexact1 hexact2 h1 h2
      obtain ⟨c23, heq23, h23⟩ := exactJoin_combineTypes hexact2 hexact3 h2 h3
      rw [heq12, heq23, Option.bind_some, Option.bind_some,
        combineTypes_decimal h12.exact hexact3
          (by rw [h12.isExactDecimal, or_assoc]; exact hdecimal),
        combineTypes_decimal hexact1 h23.exact (by rw [h23.isExactDecimal]; exact hdecimal),
        combineDecimals_assoc h12 h23]
    · simp only [not_or, Bool.not_eq_true] at hdecimal
      exact combineIntegers_assoc (by simpa [SqlType.isExact, hdecimal.1] using hexact1)
        (by simpa [SqlType.isExact, hdecimal.2.1] using hexact2)
        (by simpa [SqlType.isExact, hdecimal.2.2] using hexact3)

/-! ## Types that are not compatible -/

/-- A combined type is of the category of both types. -/
theorem category_combineTypes {t1 t2 c : DataType} (h : combineTypes t1 t2 = some c) :
    t1.typ.category = c.typ.category ∧ t2.typ.category = c.typ.category := by
  have heq : t1.typ.category = t2.typ.category := by
    by_contra hne
    rw [combineTypes_of_ne hne] at h
    cases h
  rw [heq, and_self]
  cases h2 : t2.typ.category <;> rw [h2] at heq
  case string =>
    rw [combineTypes_string heq h2] at h
    cases h
    unfold combineStrings
    split_ifs <;> rfl
  case number =>
    obtain ⟨c', heq', hc', -⟩ := combineTypes_number_some heq h2
    rw [h] at heq'
    cases heq'
    exact hc'.symm
  case boolean =>
    rw [combineTypes_boolean heq h2] at h
    cases h
    rfl
  case date =>
    rw [combineTypes_date heq h2] at h
    cases h
    rfl
  case time =>
    rw [combineTypes_time heq h2] at h
    cases h
    unfold combineDatetimes
    split_ifs <;> rfl
  case timestamp =>
    rw [combineTypes_timestamp heq h2] at h
    cases h
    unfold combineDatetimes
    split_ifs <;> rfl

theorem combineTypes_assoc_of_ne {t1 t2 t3 : DataType}
    (h : ¬(t1.typ.category = t2.typ.category ∧ t2.typ.category = t3.typ.category)) :
    (combineTypes t1 t2).bind (combineTypes · t3) = none ∧
      (combineTypes t2 t3).bind (combineTypes t1) = none := by
  constructor
  · cases h12 : combineTypes t1 t2 with
    | none => rfl
    | some c =>
        have hcategory := category_combineTypes h12
        apply combineTypes_of_ne
        intro hne
        exact h ⟨hcategory.1.trans hcategory.2.symm, hcategory.2.trans hne⟩
  · cases h23 : combineTypes t2 t3 with
    | none => rfl
    | some c =>
        have hcategory := category_combineTypes h23
        apply combineTypes_of_ne
        intro hne
        exact h ⟨hne.trans hcategory.1.symm, hcategory.1.trans hcategory.2.symm⟩

/-- The types of one category can all be combined. -/
theorem combineTypes_assoc_of_category {category : TypeCategory}
    {combine : DataType → DataType → DataType} {t1 t2 t3 : DataType}
    (heq : ∀ {t u : DataType}, t.typ.category = category → u.typ.category = category →
      combineTypes t u = some (combine t u))
    (h1 : t1.typ.category = category) (h2 : t2.typ.category = category)
    (h3 : t3.typ.category = category)
    (hassoc : combine (combine t1 t2) t3 = combine t1 (combine t2 t3)) :
    (combineTypes t1 t2).bind (combineTypes · t3) =
      (combineTypes t2 t3).bind (combineTypes t1) := by
  have hcategory : ∀ {t u : DataType}, t.typ.category = category → u.typ.category = category →
      (combine t u).typ.category = category := fun ht hu =>
    (category_combineTypes (heq ht hu)).1.symm.trans ht
  rw [heq h1 h2, heq h2 h3, Option.bind_some, Option.bind_some, heq (hcategory h1 h2) h3,
    heq h1 (hcategory h2 h3), hassoc]

theorem combineTypes_assoc {t1 t2 t3 : DataType} (h1 : t1.OfExpression) (h2 : t2.OfExpression)
    (h3 : t3.OfExpression) :
    (combineTypes t1 t2).bind (combineTypes · t3) =
      (combineTypes t2 t3).bind (combineTypes t1) := by
  by_cases h : t1.typ.category = t2.typ.category ∧ t2.typ.category = t3.typ.category
  · obtain ⟨hc1, hc2⟩ := h
    rw [hc2] at hc1
    cases hc3 : t3.typ.category <;> rw [hc3] at hc1 hc2
    case string =>
      exact combineTypes_assoc_of_category combineTypes_string hc1 hc2 hc3
        (combineStrings_assoc t1 t2 t3)
    case number => exact combineTypes_number_assoc h1 h2 h3 hc1 hc2 hc3
    case boolean => exact combineTypes_assoc_of_category combineTypes_boolean hc1 hc2 hc3 rfl
    case date => exact combineTypes_assoc_of_category combineTypes_date hc1 hc2 hc3 rfl
    case time =>
      exact combineTypes_assoc_of_category combineTypes_time hc1 hc2 hc3
        (combineDatetimes_assoc rfl rfl t1 t2 t3)
    case timestamp =>
      exact combineTypes_assoc_of_category combineTypes_timestamp hc1 hc2 hc3
        (combineDatetimes_assoc rfl rfl t1 t2 t3)
  · obtain ⟨hleft, hright⟩ := combineTypes_assoc_of_ne h
    rw [hleft, hright]

/-! ## A type with itself -/

/-- What combining a type with itself yields: a FLOAT(n) is a DOUBLE PRECISION, a NUMERIC
without a size has no scale, and no precision is larger than the maximum. -/
def DataType.settled (t : DataType) : DataType :=
  if t.typ.isApproximate ∨ t.isUnlimited then { typ := t.typ }
  else if t.typ.isExactDecimal then
    { typ := t.typ, size := min t.size maxNumericPrecision, scale := t.scale }
  else { typ := t.typ, size := t.size, scale := t.scale }

theorem combineDecimals_self {t : DataType} (h : t.typ.isExactDecimal) :
    combineDecimals t t = t.settled := by
  have happrox : t.typ.isApproximate = false := by
    obtain htyp | htyp := SqlType.isExactDecimal_iff.mp h <;> rw [htyp] <;> rfl
  have htyp : (if t.typ = .decimal then SqlType.decimal else .numeric) = t.typ := by
    obtain htyp | htyp := SqlType.isExactDecimal_iff.mp h <;> simp [htyp]
  simp only [combineDecimals, DataType.settled, or_self, htyp, happrox, Bool.false_eq_true,
    false_or, h, if_true]
  by_cases hunl : t.isUnlimited
  · simp only [hunl, if_true]
  · have hdigits : combinedDigits t t = t.size := by
      rw [combinedDigits, max_self, max_self, integerDigits_of_decimal h]
      omega
    have hmin :
        (min (t.size : Int) maxNumericPrecision).toNat = min t.size maxNumericPrecision := by
      omega
    rw [if_neg hunl, if_neg hunl, hdigits, max_self, hmin]

theorem combineTypes_self {t : DataType} (ht : t.OfExpression) :
    combineTypes t t = some t.settled := by
  by_cases hdecimal : t.typ.isExactDecimal
  · have hexact : t.typ.isExact := by simp [SqlType.isExact, hdecimal]
    rw [combineTypes_decimal hexact hexact (.inl hdecimal), combineDecimals_self hdecimal]
  · rw [Bool.not_eq_true] at hdecimal
    have hscale := ht.scale hdecimal
    have hsize := ht.size
    have hzero : ∀ n : Nat, (if n = 0 then 0 else n) = n := by
      intro n
      split_ifs <;> omega
    obtain ⟨typ, size, scale, notNull⟩ := t
    simp only at hdecimal hscale hsize
    subst hscale
    cases typ <;> simp [SqlType.isExactDecimal, SqlType.isInteger] at hdecimal hsize <;>
      simp [combineTypes, combineStrings, combineApproximates, combineDatetimes,
        SqlType.isString_iff_category, SqlType.isNumber_iff_category, DataType.settled,
        DataType.isUnlimited, SqlType.category, SqlType.isApproximate,
        SqlType.isExactDecimal, SqlType.hasTimeZone, hsize, hzero] <;> rfl

/-! ## All of the types -/

/-- The combined type can be that of an expression. -/
theorem DataType.OfExpression.combine {t1 t2 c : DataType} (h : combineTypes t1 t2 = some c) :
    c.OfExpression := by
  have heq : t1.typ.category = t2.typ.category := by
    by_contra hne
    rw [combineTypes_of_ne hne] at h
    cases h
  cases h2 : t2.typ.category <;> rw [h2] at heq
  case string =>
    rw [combineTypes_string heq h2] at h
    cases h
    unfold combineStrings
    split_ifs <;> constructor <;> simp [SqlType.isInteger]
  case number =>
    obtain ⟨-, heq'⟩ | ⟨-, -, heq'⟩ | ⟨hexact, -, hdecimal, heq'⟩ := combineTypes_number heq h2 <;>
      rw [h] at heq' <;> cases heq'
    · unfold combineApproximates
      split_ifs <;> constructor <;> simp
    · constructor <;> simp
    · have hjoin := (exactJoin_combineDecimals hexact hdecimal).isExactDecimal.mpr hdecimal
      constructor
      · intro habsurd
        revert hjoin habsurd
        cases (combineDecimals t1 t2).typ <;> simp [SqlType.isInteger, SqlType.isExactDecimal]
      · intro habsurd
        rw [hjoin] at habsurd
        cases habsurd
  case boolean =>
    rw [combineTypes_boolean heq h2] at h
    cases h
    constructor <;> simp
  case date =>
    rw [combineTypes_date heq h2] at h
    cases h
    constructor <;> simp
  case time =>
    rw [combineTypes_time heq h2] at h
    cases h
    unfold combineDatetimes
    split_ifs <;> constructor <;> simp [SqlType.isInteger]
  case timestamp =>
    rw [combineTypes_timestamp heq h2] at h
    cases h
    unfold combineDatetimes
    split_ifs <;> constructor <;> simp [SqlType.isInteger]

/-- NOT NULL is not part of a combined type. -/
theorem combineTypes_notNull (t1 t2 : DataType) (b : Bool) :
    combineTypes { t1 with notNull := b } t2 = combineTypes t1 t2 := by
  have hmost : (mostSpecificType { t1 with notNull := b } t2).toOption =
      (mostSpecificType t1 t2).toOption := by
    simp only [mostSpecificType]
    split_ifs <;> rfl
  simp only [combineTypes, hmost]
  rfl

theorem foldlM_combineTypes_perm {ts us : List DataType} (h : ts.Perm us)
    (hts : ∀ t ∈ ts, t.OfExpression) {t : DataType} (ht : t.OfExpression) :
    ts.foldlM combineTypes t = us.foldlM combineTypes t := by
  induction h generalizing t with
  | nil => rfl
  | @cons u ts us _ ih =>
      rw [List.foldlM_cons, List.foldlM_cons]
      cases hc : combineTypes t u with
      | none => rfl
      | some c =>
          exact ih (fun v hv => hts v (List.mem_cons_of_mem u hv))
            (DataType.OfExpression.combine hc)
  | swap u v ts =>
      have hu := hts u (by simp)
      have hv := hts v (by simp)
      have hswap : (combineTypes t v >>= (combineTypes · u)) =
          (combineTypes t u >>= (combineTypes · v)) := by
        change (combineTypes t v).bind (combineTypes · u) =
          (combineTypes t u).bind (combineTypes · v)
        rw [combineTypes_assoc ht hv hu, combineTypes_comm v u, ← combineTypes_assoc ht hu hv]
      simp only [List.foldlM_cons, ← bind_assoc]
      rw [hswap]
  | trans h1 _ ih1 ih2 =>
      rw [ih1 hts ht, ih2 (fun u hu => hts u (h1.mem_iff.mpr hu)) ht]

/-- The types are combined to the same type in any order. -/
theorem combineAll_perm {ts us : List DataType} (h : ts.Perm us)
    (hts : ∀ t ∈ ts, t.OfExpression) : combineAll ts = combineAll us := by
  have hstrip : ∀ {t : DataType}, t.OfExpression →
      DataType.OfExpression { t with notNull := false } := fun ht => ⟨ht.size, ht.scale⟩
  induction h with
  | nil => rfl
  | @cons t ts us h _ =>
      exact foldlM_combineTypes_perm h (fun u hu => hts u (List.mem_cons_of_mem t hu))
        (hstrip (hts t List.mem_cons_self))
  | swap t u ts =>
      simp only [combineAll, List.foldlM_cons, combineTypes_notNull, combineTypes_comm u t]
  | trans h1 _ ih1 ih2 => rw [ih1 hts, ih2 (fun u hu => hts u (h1.mem_iff.mpr hu))]

end Vsql
