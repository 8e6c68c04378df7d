import Vsql.Queries.ExactComparison
import Vsql.Queries.KeyRange

/-!
# The rows in a key range

A row is in the range of a WHERE clause if and only if, for each condition that
the range was made of, the key of its value is on the side of the key of the
value of the condition that the operator says.  A WHERE clause that is true for a
row puts its values on these sides, unless a comparison is inexact.
-/

namespace Vsql

open Foundation
open Foundation.OrderedCode

/-- The keys of two values that the operator can be true for. -/
def ComparisonOperator.holdsOfKeys (op : ComparisonOperator) (a b : Bytes) : Prop :=
  match op with
  | .equal => a = b
  | .greaterThan | .greaterThanOrEqual => b ≤ a
  | _ => a ≤ b

instance (op : ComparisonOperator) (a b : Bytes) : Decidable (op.holdsOfKeys a b) := by
  cases op <;> unfold ComparisonOperator.holdsOfKeys <;> infer_instance

/-! ## The conditions that a range is made of -/

/-- A condition of a column, with the value that a row has in it. -/
structure UsedCondition where
  typ : DataType
  row : Value
  op : ComparisonOperator
  value : Value
  stored : Value

namespace UsedCondition

def key (u : UsedCondition) : Bytes := writeKeyValue u.row u.typ.typ

def bound (u : UsedCondition) : Bytes := writeKeyValue u.stored u.typ.typ

def Holds (u : UsedCondition) : Prop := u.op.holdsOfKeys u.key u.bound

instance (u : UsedCondition) : Decidable u.Holds := by
  unfold Holds
  infer_instance

end UsedCondition

section

variable (tz : TimeZone) (conditions : List KeyCondition)

def usableConditions (i : Nat) (typ : DataType) (row : Value) : List UsedCondition :=
  conditions.filterMap fun condition =>
    if condition.column ≠ i then none
    else
      match condition.value with
      | .ok value =>
          (storedValue tz condition typ).map fun stored =>
            ⟨typ, row, condition.op, value, stored⟩
      | .error _ => none

/-- The last = of each column, and every bound of the first column without one. -/
def usedConditions : List (KeyColumn × Value) → Nat → List UsedCondition
  | [], _ => []
  | (column, row) :: columns, i =>
      let usable := usableConditions tz conditions i column.typ row
      match (usable.filter fun u => u.op = .equal).getLast? with
      | some u => u :: usedConditions columns (i + 1)
      | none => usable

end

/-! ## Bounds -/

def ComparisonOperator.isLower : ComparisonOperator → Bool
  | .greaterThan | .greaterThanOrEqual => true
  | _ => false

namespace KeyBounds

variable {b : KeyBounds} {op : ComparisonOperator} {v key : Bytes}

theorem add_equal : (b.add op v).equal = if op = .equal then v else b.equal := by
  cases op <;> simp [add] <;> split <;> rfl

theorem add_lower_le :
    (b.add op v).lower ≤ key ↔ b.lower ≤ key ∧ (op.isLower → v ≤ key) := by
  have hbound : ∀ b' : KeyBounds,
      b' = (if b.lower = [] ∨ b.lower < v then { b with lower := v } else b) →
      (b'.lower ≤ key ↔ b.lower ≤ key ∧ v ≤ key) := by
    rintro b' rfl
    split
    · next h =>
        refine ⟨fun hv => ⟨?_, hv⟩, fun hv => hv.2⟩
        obtain h | h := h
        · rw [h]
          exact prefix_le List.nil_prefix
        · exact h.le.trans hv
    · next h =>
        rw [not_or, not_lt] at h
        exact ⟨fun hv => ⟨hv, h.2.trans hv⟩, fun hv => hv.1⟩
  have hupper : ∀ p : Prop, [Decidable p] → (if p then { b with upper := v } else b).lower =
      b.lower := by
    intro p _
    split <;> rfl
  cases op with
  | greaterThan | greaterThanOrEqual => simpa [add, ComparisonOperator.isLower] using hbound _ rfl
  | equal => simp [add, ComparisonOperator.isLower]
  | notEqual | lessThan | lessThanOrEqual =>
      simp only [add, ComparisonOperator.isLower, hupper]
      simp

theorem le_add_upper (hv : v ≠ []) :
    (b.add op v).upper = [] ∨ key ≤ (b.add op v).upper ↔
      (b.upper = [] ∨ key ≤ b.upper) ∧ (op ≠ .equal → op.isLower = false → key ≤ v) := by
  have hbound : ∀ b' : KeyBounds,
      b' = (if b.upper = [] ∨ v < b.upper then { b with upper := v } else b) →
      (b'.upper = [] ∨ key ≤ b'.upper ↔ (b.upper = [] ∨ key ≤ b.upper) ∧ key ≤ v) := by
    rintro b' rfl
    split
    · next h =>
        refine ⟨fun hk => ?_, fun hk => .inr hk.2⟩
        have hk := hk.resolve_left hv
        exact ⟨h.imp_right fun h => hk.trans h.le, hk⟩
    · next h =>
        rw [not_or, not_lt] at h
        exact ⟨fun hk => ⟨hk, (hk.resolve_left h.1).trans h.2⟩, fun hk => hk.1⟩
  have hlower : ∀ p : Prop, [Decidable p] → (if p then { b with lower := v } else b).upper =
      b.upper := by
    intro p _
    split <;> rfl
  cases op with
  | greaterThan | greaterThanOrEqual =>
      simp only [add, ComparisonOperator.isLower, hlower]
      simp
  | equal => simp [add]
  | notEqual | lessThan | lessThanOrEqual =>
      simpa [add, ComparisonOperator.isLower] using hbound _ rfl

theorem add_lower_eq : (b.add op v).lower = b.lower ∨ (b.add op v).lower = v := by
  cases op <;> simp only [add] <;> (try split) <;> simp

theorem add_upper_eq : (b.add op v).upper = b.upper ∨ (b.add op v).upper = v := by
  cases op <;> simp only [add] <;> (try split) <;> simp

/-- The bounds that the conditions of a column add up to. -/
def ofUsed (b : KeyBounds) (us : List UsedCondition) : KeyBounds :=
  us.foldl (fun b u => b.add u.op u.bound) b

@[simp] theorem ofUsed_nil : b.ofUsed [] = b := rfl

@[simp] theorem ofUsed_cons (u : UsedCondition) (us : List UsedCondition) :
    b.ofUsed (u :: us) = (b.add u.op u.bound).ofUsed us := rfl

theorem ofUsed_equal (us : List UsedCondition) :
    (b.ofUsed us).equal =
      ((us.filter fun u => u.op = .equal).getLast?.map UsedCondition.bound).getD b.equal := by
  induction us generalizing b with
  | nil => rfl
  | cons u us ih =>
      rw [ofUsed_cons, ih, add_equal]
      by_cases hop : u.op = .equal
      · rw [List.filter_cons_of_pos (by simpa using hop), if_pos hop, List.getLast?_cons]
        cases (us.filter fun u => u.op = .equal).getLast? <;> rfl
      · rw [List.filter_cons_of_neg (by simpa using hop), if_neg hop]

theorem ofUsed_lower_le (us : List UsedCondition) :
    (b.ofUsed us).lower ≤ key ↔
      b.lower ≤ key ∧ ∀ u ∈ us, u.op.isLower → u.bound ≤ key := by
  induction us generalizing b with
  | nil => simp
  | cons u us ih => rw [ofUsed_cons, ih, add_lower_le, List.forall_mem_cons, and_assoc]

theorem le_ofUsed_upper {us : List UsedCondition} (hne : ∀ u ∈ us, u.bound ≠ []) :
    (b.ofUsed us).upper = [] ∨ key ≤ (b.ofUsed us).upper ↔
      (b.upper = [] ∨ key ≤ b.upper) ∧
        ∀ u ∈ us, u.op ≠ .equal → u.op.isLower = false → key ≤ u.bound := by
  induction us generalizing b with
  | nil => simp
  | cons u us ih =>
      rw [List.forall_mem_cons] at hne
      rw [ofUsed_cons, ih hne.2, le_add_upper hne.1, List.forall_mem_cons, and_assoc]

theorem ofUsed_lower_eq (us : List UsedCondition) :
    (b.ofUsed us).lower = b.lower ∨ ∃ u ∈ us, (b.ofUsed us).lower = u.bound := by
  induction us generalizing b with
  | nil => exact .inl rfl
  | cons u us ih =>
      rw [ofUsed_cons]
      obtain h | ⟨w, hw, h⟩ := ih (b := b.add u.op u.bound)
      · rw [h]
        exact (add_lower_eq (v := u.bound)).imp_right fun h => ⟨u, by simp, h⟩
      · exact .inr ⟨w, List.mem_cons_of_mem u hw, h⟩

theorem ofUsed_upper_eq (us : List UsedCondition) :
    (b.ofUsed us).upper = b.upper ∨ ∃ u ∈ us, (b.ofUsed us).upper = u.bound := by
  induction us generalizing b with
  | nil => exact .inl rfl
  | cons u us ih =>
      rw [ofUsed_cons]
      obtain h | ⟨w, hw, h⟩ := ih (b := b.add u.op u.bound)
      · rw [h]
        exact (add_upper_eq (v := u.bound)).imp_right fun h => ⟨u, by simp, h⟩
      · exact .inr ⟨w, List.mem_cons_of_mem u hw, h⟩

end KeyBounds

section

variable {tz : TimeZone}

theorem keyBounds_eq (conditions : List KeyCondition) (i : Nat) (typ : DataType)
    (row : Value) :
    keyBounds tz conditions i typ =
      KeyBounds.ofUsed {} (usableConditions tz conditions i typ row) := by
  unfold keyBounds
  generalize ({} : KeyBounds) = b
  induction conditions generalizing b with
  | nil => rfl
  | cons condition conditions ih =>
      rw [List.foldl_cons, ih]
      unfold usableConditions conditionKeyValue
      rw [List.filterMap_cons]
      by_cases hcolumn : condition.column = i
      · simp only [hcolumn, ne_eq, not_true_eq_false, if_false]
        cases hvalue : condition.value with
        | error e => simp [storedValue, hvalue]
        | ok value => cases storedValue tz condition typ <;> rfl
      · simp [hcolumn]

/-! ## Stored values -/

theorem writeKeyValue_ne_nil (v : Value) (typ : SqlType) : writeKeyValue v typ ≠ [] := by
  have hinteger : ∀ (n : Int) (size : Nat), writeKeyInteger n (size + 1) ≠ [] := by
    intro n size
    simp [writeKeyInteger, bigEndian]
  have hfloat : ∀ (x : F64) (size : Nat), writeKeyFloat x (size + 1) ≠ [] := by
    intro x size
    simp [writeKeyFloat, bigEndian]
  have hstring : ∀ s : Bytes, writeKeyCharacters s ≠ [] := by
    intro s
    cases s with
    | nil => simp [writeKeyCharacters]
    | cons b s => rw [writeKeyCharacters]; split <;> simp
  have htime : ∀ t : Time, writeKeyTime t typ ≠ [] := by
    intro t
    rw [writeKeyTime]
    split
    · exact hinteger _ 7
    · exact hinteger _ 7
  unfold writeKeyValue
  cases typ with
  | boolean => simp
  | smallint => exact hinteger _ 1
  | integer => exact hinteger _ 3
  | bigint => exact hinteger _ 7
  | real => exact hfloat _ 3
  | doublePrecision => exact hfloat _ 7
  | numeric | decimal =>
      simp only [writeKeyNumeric]
      split
      · simp
      · split <;> simp
  | character | varchar => exact hstring _
  | _ =>
      simp only
      split
      · exact htime _
      · exact hinteger _ 7

theorem length_writeKeyFloat (x : F64) (size : Nat) :
    (writeKeyFloat x size).length = size := by
  rw [writeKeyFloat, bigEndian_eq_map, List.length_map, length_fixedWidth]

theorem compareInts_ne_isUnknown (a b : Int) : Value.compareInts a b ≠ .isUnknown := by
  unfold Value.compareInts
  split
  · simp
  · split <;> simp

theorem compareNumbers_ne_isUnknown (x y : Value) :
    Value.compareNumbers x y ≠ .isUnknown := by
  have hnumeric : ∀ m n : Numeric, m.compare n ≠ .isUnknown := by
    intro m n
    exact compareInts_ne_isUnknown _ _
  unfold Value.compareNumbers
  split
  · exact hnumeric _ _
  · split
    · exact hnumeric _ _
    · split
      · exact compareInts_ne_isUnknown _ _
      · unfold compareF64
        split
        · simp
        · split <;> simp

/-- Values that are not NULL are in one order or the other. -/
theorem compare_ne_isUnknown {x y : Value} {c : CompareResult} (hx : x.isNull = false)
    (hy : y.isNull = false) (h : Value.compare tz x y = .ok c) : c ≠ .isUnknown := by
  cases Value.compares_of_compare hx hy h with
  | numbers => exact compareNumbers_ne_isUnknown x y
  | strings =>
      unfold Value.compareStrings
      dsimp only
      split_ifs <;> simp
  | datetimes =>
      unfold Value.compareDatetimes
      split_ifs <;> exact compareInts_ne_isUnknown _ _
  | booleans =>
      unfold Value.compareBooleans
      split_ifs <;> simp

/-- Values of one type can always be compared. -/
theorem exists_compare {x y : Value} (hx : x.isNull = false) (hy : y.isNull = false)
    (htyp : x.typ.typ = y.typ.typ) :
    ∃ c, Value.compare tz x y = .ok c ∧ c ≠ .isUnknown := by
  obtain ⟨c, hc⟩ : ∃ c, Value.compare tz x y = .ok c := by
    by_cases hnum : x.typ.typ.isNumber
    · exact ⟨_, Value.compare_of_isNumber hx hy hnum (htyp ▸ hnum)⟩
    by_cases hstr : x.typ.typ.isString
    · exact ⟨_, Value.compare_of_isString hx hy hstr (htyp ▸ hstr)⟩
    by_cases hdt : x.typ.typ.isDatetime
    · obtain ⟨t, ht, -⟩ := Value.exists_time hx hdt
      obtain ⟨u, hu, -⟩ := Value.exists_time hy (htyp ▸ hdt)
      exact ⟨_, Value.compare_of_timeValue? hx hy ht hu (by rw [htyp])⟩
    · have hbool : x.typ.typ = .boolean := by
        revert hnum hstr hdt
        cases x.typ.typ <;> simp [SqlType.isNumber, SqlType.isString, SqlType.isDatetime]
      exact ⟨_, Value.compare_of_boolean hx hy hbool (htyp ▸ hbool)⟩
  exact ⟨c, hc, compare_ne_isUnknown hx hy hc⟩

/-- Two values of a column have keys that differ in a byte, or are the same. -/
theorem writeKeyValue_trichotomy {t : DataType} {x y : Value} (hx : x.StoredAs t)
    (hy : y.StoredAs t) :
    Before (writeKeyValue x t.typ) (writeKeyValue y t.typ) ∨
      writeKeyValue x t.typ = writeKeyValue y t.typ ∨
      Before (writeKeyValue y t.typ) (writeKeyValue x t.typ) := by
  by_cases happrox : t.typ.isApproximate
  · refine before_trichotomy ?_
    cases htyp : t.typ with
    | real | doublePrecision => simp [writeKeyValue, length_writeKeyFloat]
    | _ => simp [htyp, SqlType.isApproximate] at happrox
  · rw [Bool.not_eq_true] at happrox
    have htyp : x.typ.typ = y.typ.typ := hx.typ.trans hy.typ.symm
    obtain ⟨c, hcmp, hc⟩ : ∃ c, Value.compare noTimeZone x y = .ok c ∧ c ≠ .isUnknown :=
      exists_compare hx.notNull hy.notNull htyp
    have hagrees := agrees_writeKeyValue hx.notNull hy.notNull
      (Value.isNaN_of_exact (hx.typ ▸ happrox)) (Value.isNaN_of_exact (hy.typ ▸ happrox)) htyp
      (fun hdec => by rw [hx.scale (hx.typ ▸ hdec), hy.scale (hx.typ ▸ hdec)]) hcmp
    rw [hx.typ] at hagrees
    cases c with
    | isUnknown => exact absurd rfl hc
    | isLess => exact .inl (hagrees.1 rfl)
    | isEqual => exact .inr (.inl (hagrees.2.1 rfl))
    | isGreater => exact .inr (.inr (hagrees.2.2 rfl))

/-! ## Rows in a range -/

variable {conditions : List KeyCondition}

theorem storedValue_eq_some {condition : KeyCondition} {typ : DataType} {stored : Value}
    (h : storedValue tz condition typ = some stored) :
    ∃ value, condition.value = .ok value ∧ value.isNull = false ∧
      exactCast tz value typ = .ok stored := by
  unfold storedValue at h
  split at h
  · next value hvalue =>
      split at h
      · cases h
      · next hnull =>
          cases hcast : exactCast tz value typ with
          | error e => simp [hcast, Except.toOption] at h
          | ok s =>
              rw [hcast] at h
              cases h
              exact ⟨value, hvalue, by simpa using hnull, hcast⟩
  · cases h

theorem mem_usableConditions {i : Nat} {typ : DataType} {row : Value} {u : UsedCondition}
    (h : u ∈ usableConditions tz conditions i typ row) :
    u.typ = typ ∧ u.row = row ∧ u.value.isNull = false ∧
      exactCast tz u.value typ = .ok u.stored ∧
      ⟨i, u.op, .ok u.value⟩ ∈ conditions := by
  unfold usableConditions at h
  obtain ⟨condition, hmem, hu⟩ := List.mem_filterMap.mp h
  split at hu
  · cases hu
  · next hcolumn =>
      rw [ne_eq, not_not] at hcolumn
      split at hu
      · next value hvalue =>
          obtain ⟨stored, hstored, rfl⟩ := Option.map_eq_some_iff.mp hu
          obtain ⟨value', hvalue', hnull, hcast⟩ := storedValue_eq_some hstored
          rw [hvalue] at hvalue'
          cases hvalue'
          refine ⟨rfl, rfl, hnull, hcast, ?_⟩
          rwa [← hcolumn, ← hvalue]
      · cases hu

theorem UsedCondition.storedAs {i : Nat} {typ : DataType} {row : Value}
    {u : UsedCondition} (h : u ∈ usableConditions tz conditions i typ row) :
    u.stored.StoredAs typ := by
  obtain ⟨-, -, hnull, hcast, -⟩ := mem_usableConditions h
  exact storedAs_cast hnull (exactCast_eq_ok hcast).1

/-- A value of a row, in a column of a key. -/
def KeyColumn.Has (column : KeyColumn) (row : Value) : Prop :=
  (row.isNull = false → row.StoredAs column.typ) ∧
    (column.nullable = false → row.isNull = false)

theorem KeyColumn.valuePart_of_not_isNull (column : KeyColumn) {row : Value}
    (h : row.isNull = false) :
    column.valuePart row = column.part (writeKeyValue row column.typ.typ) := by
  rw [valuePart, if_neg (by simp [h])]

def keyParts (columns : List (KeyColumn × Value)) : Bytes :=
  columns.flatMap fun c => c.1.valuePart c.2

/-- Every key of a range starts like the range does. -/
theorem prefix_keyRangeFrom (columns : List KeyColumn) (i : Nat) (key : Bytes) :
    ∃ first last, keyRangeFrom tz conditions columns i key =
      (key ++ first, nextKey (key ++ last)) := by
  induction columns generalizing i key with
  | nil => exact ⟨[], [], by simp [keyRangeFrom]⟩
  | cons column columns ih =>
      rw [keyRangeFrom]
      split
      · obtain ⟨first, last, h⟩ := ih (i + 1) (key ++ column.part
          (keyBounds tz conditions i column.typ).equal)
        exact ⟨_, _, by rw [h, List.append_assoc, List.append_assoc]⟩
      · split
        · exact ⟨[], [], by simp⟩
        · exact ⟨_, _, rfl⟩

/-- The keys between the two ends of a range. -/
def InRange (range : Bytes × Bytes) (key : Bytes) : Prop :=
  range.1 ≤ key ∧ key < range.2

theorem not_inRange_of_before {key part part' s : Bytes} (hkey : IsKey key)
    (columns : List KeyColumn) (i : Nat) (h : Before part part' ∨ Before part' part) :
    ¬InRange (keyRangeFrom tz conditions columns i (key ++ part')) (key ++ (part ++ s)) := by
  obtain ⟨first, last, hrange⟩ : ∃ first last,
      keyRangeFrom tz conditions columns i (key ++ part') =
        (key ++ part' ++ first, nextKey (key ++ part' ++ last)) :=
    prefix_keyRangeFrom columns i (key ++ part')
  rw [hrange, List.append_assoc, List.append_assoc]
  rintro ⟨hmin, hmax⟩
  obtain h | h := h
  · have hlt := ((h.append s first).prepend key).lt
    exact absurd hmin (not_le.mpr hlt)
  · have hle := nextKey_le_of_before ((h.append last s).prepend key) (hkey.append _)
    exact absurd hmax (not_lt.mpr hle)

/-- The lower and the upper bound of a column, whichever of them there are. -/
theorem inRange_bounds (column : KeyColumn) {key lower upper value : Bytes}
    (hkey : IsKey key) (hlower : Comparable lower value) (hupper : Comparable upper value)
    (hvalue : upper = [] ∨ Comparable value upper) (s : Bytes) :
    InRange (key ++ column.part (if column.desc then upper else lower),
        nextKey (key ++ column.part (if column.desc then lower else upper)))
      (key ++ (column.part value ++ s)) ↔
      lower ≤ value ∧ (upper = [] ∨ value ≤ upper) := by
  have hle : upper = [] ∨ value ≤ upper ↔ ¬Before upper value := by
    obtain rfl | hvalue := hvalue
    · exact iff_of_true (.inl rfl) fun h => h.not_isPrefix List.nil_prefix
    · rw [hvalue.le_iff]
      refine ⟨fun h hbefore => ?_, fun h => .inr h⟩
      obtain rfl | h := h
      · exact hbefore.not_isPrefix List.nil_prefix
      · exact h hbefore
  rw [hle, hlower.le_iff, InRange]
  have hlow := column.before_part_iff hlower
  have hup := column.before_part_iff hupper
  by_cases hdesc : column.desc
  · simp only [hdesc, if_true] at hlow hup ⊢
    rw [(column.comparable_part hupper).append_le_iff, hup.2,
      lt_nextKey_iff hkey (column.comparable_part hlower), hlow.1, and_comm]
  · simp only [hdesc, Bool.false_eq_true, if_false] at hlow hup ⊢
    rw [(column.comparable_part hlower).append_le_iff, hlow.2,
      lt_nextKey_iff hkey (column.comparable_part hupper), hup.1]

/-- What the conditions of a column without an = say together. -/
theorem forall_holds_iff {us : List UsedCondition} {key : Bytes}
    (hne : ∀ u ∈ us, u.bound ≠ []) (hkey : ∀ u ∈ us, u.key = key)
    (hequal : ∀ u ∈ us, u.op ≠ .equal) :
    (∀ u ∈ us, u.Holds) ↔
      (KeyBounds.ofUsed {} us).lower ≤ key ∧
        ((KeyBounds.ofUsed {} us).upper = [] ∨ key ≤ (KeyBounds.ofUsed {} us).upper) := by
  rw [KeyBounds.ofUsed_lower_le, KeyBounds.le_ofUsed_upper hne]
  have hnil : ([] : Bytes) ≤ key := prefix_le List.nil_prefix
  simp only [hnil, true_and, true_or]
  have hside : ∀ u ∈ us, u.Holds ↔
      (u.op.isLower → u.bound ≤ key) ∧ (u.op.isLower = false → key ≤ u.bound) := by
    intro u hu
    have hop := hequal u hu
    rw [UsedCondition.Holds, hkey u hu]
    revert hop
    cases u.op <;> simp [ComparisonOperator.holdsOfKeys, ComparisonOperator.isLower]
  refine ⟨fun h => ⟨fun u hu => ((hside u hu).mp (h u hu)).1,
    fun u hu _ => ((hside u hu).mp (h u hu)).2⟩, fun h u hu => (hside u hu).mpr
    ⟨h.1 u hu, h.2 u hu (hequal u hu)⟩⟩

/-- A column that is compared with =: its value has to be the one in the range. -/
theorem inRange_equal (column : KeyColumn) {columns : List KeyColumn} {i : Nat} {P : Prop}
    {key bound value s : Bytes} (hkey : IsKey key)
    (hside : Before bound value ∨ bound = value ∨ Before value bound)
    (hrest : ∀ key', IsKey key' →
      (InRange (keyRangeFrom tz conditions columns i key') (key' ++ s) ↔ P)) :
    InRange (keyRangeFrom tz conditions columns i (key ++ column.part bound))
        (key ++ (column.part value ++ s)) ↔
      value = bound ∧ P := by
  have hdiffers : Before value bound ∨ Before bound value →
      (InRange (keyRangeFrom tz conditions columns i (key ++ column.part bound))
        (key ++ (column.part value ++ s)) ↔ value = bound ∧ P) := fun h => by
    refine iff_of_false (not_inRange_of_before hkey _ _ (column.part_separated h)) ?_
    intro hand
    rw [hand.1, or_self] at h
    exact h.lt.ne rfl
  obtain hbefore | rfl | hbefore := hside
  · exact hdiffers (.inr hbefore)
  · rw [← List.append_assoc, hrest _ (hkey.append _)]
    simp
  · exact hdiffers (.inl hbefore)

/-- The first column that is not compared with =: its value has to be between the
bounds, if there are any. -/
theorem inRange_last (column : KeyColumn) {row : Value} {us : List UsedCondition}
    {key : Bytes} (hkey : IsKey key)
    (hkeys : ∀ u ∈ us, u.key = writeKeyValue row column.typ.typ)
    (hnull : ∀ u ∈ us, row.isNull = false)
    (hsides : ∀ u ∈ us, row.isNull = false →
      Before u.bound u.key ∨ u.bound = u.key ∨ Before u.key u.bound)
    (hops : ∀ u ∈ us, u.op ≠ .equal) (s : Bytes) :
    InRange
        (if (KeyBounds.ofUsed {} us).lower = [] ∧ (KeyBounds.ofUsed {} us).upper = [] then
          (key, nextKey key)
        else
          (key ++ column.part (if column.desc then (KeyBounds.ofUsed {} us).upper
              else (KeyBounds.ofUsed {} us).lower),
            nextKey (key ++ column.part (if column.desc then (KeyBounds.ofUsed {} us).lower
              else (KeyBounds.ofUsed {} us).upper))))
        (key ++ (column.valuePart row ++ s)) ↔
      ∀ u ∈ us, u.Holds := by
  rw [forall_holds_iff (fun u _ => writeKeyValue_ne_nil _ _) hkeys hops]
  have hlower := KeyBounds.ofUsed_lower_eq (b := {}) us
  have hupper := KeyBounds.ofUsed_upper_eq (b := {}) us
  generalize (KeyBounds.ofUsed {} us).lower = lower at hlower ⊢
  generalize (KeyBounds.ofUsed {} us).upper = upper at hupper ⊢
  by_cases hnone : lower = [] ∧ upper = []
  · rw [if_pos hnone, hnone.1, hnone.2]
    refine iff_of_true ⟨prefix_le (List.prefix_append _ _), ?_⟩
      ⟨prefix_le List.nil_prefix, .inl rfl⟩
    exact prefix_lt_nextKey hkey (List.prefix_append _ _)
  · have hrow : row.isNull = false := by
      obtain hlower | ⟨u, hu, -⟩ := hlower
      · obtain hupper | ⟨u, hu, -⟩ := hupper
        · exact absurd ⟨hlower, hupper⟩ hnone
        · exact hnull u hu
      · exact hnull u hu
    have hcomparable : ∀ bound : Bytes, (bound = [] ∨ ∃ u ∈ us, bound = u.bound) →
        Comparable bound (writeKeyValue row column.typ.typ) ∧
          (bound = [] ∨ Comparable (writeKeyValue row column.typ.typ) bound) := by
      rintro bound (rfl | ⟨u, hu, rfl⟩)
      · exact ⟨.of_nil _, .inl rfl⟩
      · have hside := hsides u hu hrow
        rw [hkeys u hu] at hside
        exact ⟨.of_trichotomy hside, .inr (.of_trichotomy
          (hside.elim (fun h => .inr (.inr h)) fun h => h.elim
            (fun h => .inr (.inl h.symm)) .inl))⟩
    rw [if_neg hnone, column.valuePart_of_not_isNull hrow]
    exact inRange_bounds column hkey (hcomparable lower hlower).1
      (hcomparable upper hupper).1 (hcomparable upper hupper).2 _

/-- The row is in the range if and only if its values are on the sides of the values
of the conditions that the range was made of. -/
theorem inRange_keyRangeFrom_iff {columns : List (KeyColumn × Value)} {i : Nat}
    {key : Bytes} (hkey : IsKey key) (hhas : ∀ c ∈ columns, c.1.Has c.2)
    (hnull : ∀ u ∈ usedConditions tz conditions columns i, u.row.isNull = false)
    (s : Bytes) :
    InRange (keyRangeFrom tz conditions (columns.map (·.1)) i key)
        (key ++ (keyParts columns ++ s)) ↔
      ∀ u ∈ usedConditions tz conditions columns i, u.Holds := by
  induction columns generalizing i key with
  | nil =>
      refine iff_of_true ⟨prefix_le (List.prefix_append _ _), ?_⟩ (by simp [usedConditions])
      exact prefix_lt_nextKey hkey (List.prefix_append _ _)
  | cons c columns ih =>
      obtain ⟨column, row⟩ := c
      rw [List.forall_mem_cons] at hhas
      rw [usedConditions] at hnull ⊢
      rw [List.map_cons, keyRangeFrom, keyBounds_eq conditions i column.typ row]
      have hstored : ∀ u ∈ usableConditions tz conditions i column.typ row,
          u.typ = column.typ ∧ u.row = row ∧ u.stored.StoredAs column.typ := fun u hu =>
        ⟨(mem_usableConditions hu).1, (mem_usableConditions hu).2.1,
          UsedCondition.storedAs hu⟩
      generalize usableConditions tz conditions i column.typ row = us at hstored hnull ⊢
      have hkeys : ∀ u ∈ us, u.key = writeKeyValue row column.typ.typ := fun u hu => by
        rw [UsedCondition.key, (hstored u hu).1, (hstored u hu).2.1]
      have hsides : ∀ u ∈ us, row.isNull = false →
          Before u.bound u.key ∨ u.bound = u.key ∨ Before u.key u.bound := fun u hu hrow => by
        rw [UsedCondition.bound, UsedCondition.key, (hstored u hu).1, (hstored u hu).2.1]
        exact writeKeyValue_trichotomy (hstored u hu).2.2 (hhas.1.1 hrow)
      have hparts : keyParts ((column, row) :: columns) ++ s =
          column.valuePart row ++ (keyParts columns ++ s) := List.append_assoc _ _ _
      rw [hparts]
      cases hlast : (us.filter fun u => u.op = .equal).getLast? with
      | some u =>
          have hmem := List.mem_filter.mp (List.mem_of_getLast? hlast)
          have hop : u.op = .equal := by simpa using hmem.2
          have hequal : (KeyBounds.ofUsed {} us).equal = u.bound := by
            simp [KeyBounds.ofUsed_equal, hlast]
          have hne : u.bound ≠ [] := writeKeyValue_ne_nil _ _
          rw [hlast] at hnull
          simp only [List.forall_mem_cons] at hnull
          have hrow : row.isNull = false := (hstored u hmem.1).2.1 ▸ hnull.1
          simp only [hequal, hne, ne_eq, not_false_eq_true, if_true, List.forall_mem_cons]
          rw [column.valuePart_of_not_isNull hrow, ← hkeys u hmem.1, UsedCondition.Holds, hop]
          exact inRange_equal column hkey (hsides u hmem.1 hrow) fun key' hkey' =>
            ih hkey' hhas.2 hnull.2
      | none =>
          have hequal : (KeyBounds.ofUsed {} us).equal = [] := by
            simp [KeyBounds.ofUsed_equal, hlast]
          have hops : ∀ u ∈ us, u.op ≠ .equal := by
            rw [List.getLast?_eq_none_iff, List.filter_eq_nil_iff] at hlast
            simpa using hlast
          rw [hlast] at hnull
          simp only at hnull
          simp only [hequal, ne_eq, not_true_eq_false, if_false]
          exact inRange_last column hkey hkeys
            (fun u hu => (hstored u hu).2.1 ▸ hnull u hu) hsides hops _

end

end Vsql
