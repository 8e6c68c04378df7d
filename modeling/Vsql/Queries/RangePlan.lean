import Vsql.Queries.RangeCovers

/-!
# Plans that read a range

The plan that reads only the range of a key, and then applies the WHERE clause,
returns the rows that the WHERE clause keeps of the whole table, if each inexact
comparison that the range was made of agrees with the order of the keys.
-/

namespace Vsql

open Foundation
open Foundation.OrderedCode

variable {tz : TimeZone} {t : Table}

/-! ## Comparing the other way around -/

namespace Value

theorem compareNumbers_swap (x y : Value) :
    compareNumbers y x = (compareNumbers x y).swap := by
  have hnumeric : ∀ m n : Numeric, n.compare m = (m.compare n).swap := by
    intro m n
    unfold Numeric.compare Numeric.commonDenominator
    by_cases h : m.denominator = n.denominator
    · rw [if_pos h, if_pos h.symm]
      exact compareInts_swap _ _
    · rw [if_neg h, if_neg (Ne.symm h)]
      exact compareInts_swap _ _
  have hf64 : ∀ a b : F64, compareF64 b a = (compareF64 a b).swap := by
    intro a b
    have hasymm : BinaryFloat.lt a b → ¬BinaryFloat.lt b a := by
      simp only [BinaryFloat.lt]
      intro hab hba
      simp only [Bool.and_eq_true, decide_eq_true_eq] at hab hba
      omega
    unfold compareF64
    by_cases hab : BinaryFloat.lt a b
    · simp [hab, hasymm hab, CompareResult.swap]
    · by_cases hba : BinaryFloat.lt b a <;> simp [hab, hba, CompareResult.swap]
  unfold compareNumbers
  cases x.typ.typ.isExactDecimal <;> cases y.typ.typ.isExactDecimal <;>
    cases x.typ.typ.isInteger <;> cases y.typ.typ.isInteger <;>
    simp [hnumeric x.numericValue, hnumeric x.asExactNumeric, hf64 x.asF64,
      compareInts_swap x.intValue]

theorem compareStrings_swap (x y : Bytes) : compareStrings y x = (compareStrings x y).swap := by
  unfold compareStrings
  simp only [max_comm y.length]
  obtain h | h | h := lt_trichotomy (padTo (max x.length y.length) x)
    (padTo (max x.length y.length) y)
  · simp [h, h.not_gt, CompareResult.swap]
  · simp [h, CompareResult.swap]
  · simp [h, h.not_gt, CompareResult.swap]

theorem compareDatetimes_swap (x y : Time) :
    compareDatetimes tz y x = (compareDatetimes tz x y).swap := by
  by_cases h : x.typ.typ.hasTimeZone ∨ y.typ.typ.hasTimeZone
  · rw [compareDatetimes_of_hasTimeZone h, compareDatetimes_of_hasTimeZone h.symm,
      compareInts_swap]
  · rw [not_or, Bool.not_eq_true, Bool.not_eq_true] at h
    rw [compareDatetimes_of_not_hasTimeZone h.1 h.2,
      compareDatetimes_of_not_hasTimeZone h.2 h.1, compareInts_swap]

theorem compare_swap {x y : Value} {c : CompareResult} (h : compare tz x y = .ok c) :
    compare tz y x = .ok c.swap := by
  by_cases hnull : x.isNull ∨ y.isNull
  · rw [compare, if_pos hnull] at h
    rw [compare, if_pos hnull.symm, ← Except.ok.inj h]
    rfl
  · rw [not_or, Bool.not_eq_true, Bool.not_eq_true] at hnull
    cases compares_of_compare hnull.1 hnull.2 h with
    | numbers hx hy => rw [compare_of_isNumber hnull.2 hnull.1 hy hx, compareNumbers_swap]
    | strings hx hy =>
        rw [compare_of_isString hnull.2 hnull.1 hy hx, compareStrings_swap]
    | datetimes hx hy hfields =>
        rw [compare_of_timeValue? hnull.2 hnull.1 hy hx hfields.symm, compareDatetimes_swap]
    | booleans hx hy =>
        rw [compare_of_boolean hnull.2 hnull.1 hy hx]
        cases x.boolValue <;> cases y.boolValue <;> rfl

end Value

/-! ## The conditions are true for the row -/

theorem keyColumn_eq_some {positions : List t.Position} {j : t.Position} {i : Nat}
    (h : keyColumn positions j = some i) : positions[i]? = some j := by
  unfold keyColumn at h
  have hfold : ∀ (l : List (t.Position × Nat)) (found : Option Nat),
      l.foldl (fun found c => if c.1 = j then some c.2 else found) found = some i →
      found = some i ∨ (j, i) ∈ l := by
    intro l
    induction l with
    | nil => exact fun found h => .inl h
    | cons c l ih =>
        intro found h
        rw [List.foldl_cons] at h
        obtain hc | hc := ih _ h
        · split at hc
          · next hj =>
              refine .inr ?_
              rw [← hj, ← Option.some.inj hc]
              simp
          · exact .inl hc
        · exact .inr (List.mem_cons_of_mem c hc)
  obtain h | h := hfold _ _ h
  · cases h
  · simpa using List.mem_zipIdx_iff_getElem?.mp h

/-- What a key condition says about a row. -/
structure KeyCondition.TrueFor (tz : TimeZone) (positions : List t.Position) (row : Row t)
    (condition : KeyCondition) : Prop where
  op : condition.op ≠ .notEqual
  compares : ∀ value, condition.value = .ok value →
    ∃ j cmp, positions[condition.column]? = some j ∧
      Value.compare tz (row.data j) value = .ok cmp ∧ condition.op.truth cmp = .isTrue

theorem trueFor_keyCondition {positions : List t.Position} {columnSide valueSide : Operand t}
    {op : ComparisonOperator} {condition : KeyCondition} {row : Row t} {x y : Value}
    {cmp : CompareResult} (h : keyCondition positions columnSide op valueSide = some condition)
    (hop : op ≠ .notEqual) (hx : columnSide.run row = .ok x) (hy : valueSide.run row = .ok y)
    (hcmp : Value.compare tz x y = .ok cmp) (htruth : op.truth cmp = .isTrue) :
    condition.TrueFor tz positions row := by
  unfold keyCondition at h
  split at h
  · next j typ run =>
      split at h
      · next i hi =>
          split at h
          · cases h
            cases hx
            refine ⟨hop, fun value hvalue => ?_⟩
            rw [show y = value from Except.ok.inj (hy.symm.trans hvalue)] at hcmp
            exact ⟨j, cmp, keyColumn_eq_some hi, hcmp, htruth⟩
          · cases h
      · cases h
  · cases h

theorem trueFor_keyConditions {positions : List t.Position} {test : BooleanTest t}
    {row : Row t} (htrue : test.truth tz row = .ok .isTrue) :
    ∀ condition ∈ keyConditions positions test, condition.TrueFor tz positions row := by
  intro condition hmem
  unfold keyConditions at hmem
  split at hmem
  · simp at hmem
  · next hplain =>
      rw [Bool.or_eq_true, not_or, Bool.not_eq_true, Bool.not_eq_true,
        Option.isSome_eq_false_iff, Option.isNone_iff_eq_none] at hplain
      obtain ⟨value, hvalue, htrue⟩ := ok_of_bind htrue
      rw [hplain.1] at htrue
      simp only [BooleanTest.unaryNot, hplain.2, Bool.false_eq_true, if_false] at htrue
      rw [Except.ok.inj htrue] at hvalue
      split at hmem
      · next left op right hexpr =>
          rw [hexpr] at hvalue
          obtain ⟨x, hx, hvalue⟩ := ok_of_bind hvalue
          obtain ⟨y, hy, hvalue⟩ := ok_of_bind hvalue
          obtain ⟨cmp, hcmp, hvalue⟩ := ok_of_bind hvalue
          have htruth := Except.ok.inj hvalue
          split at hmem
          · simp at hmem
          · next hop =>
              rw [Option.mem_toList, Option.or_eq_some_iff] at hmem
              obtain hmem | ⟨-, hmem⟩ := hmem
              · exact trueFor_keyCondition hmem hop hx hy hcmp htruth
              · have hreverse : op.reverse ≠ .notEqual := by
                  cases op <;> simp_all [ComparisonOperator.reverse]
                exact trueFor_keyCondition hmem hreverse hy hx (Value.compare_swap hcmp)
                  (by rw [ComparisonOperator.truth_reverse, htruth])
      · next expr left right hexpr =>
          rw [hexpr] at hvalue
          obtain ⟨x, hx, hvalue⟩ := ok_of_bind hvalue
          obtain ⟨y, hy, hvalue⟩ := ok_of_bind hvalue
          obtain ⟨z, hz, hvalue⟩ := ok_of_bind hvalue
          obtain ⟨lower, hlower, hvalue⟩ := ok_of_bind hvalue
          obtain ⟨upper, hupper, hvalue⟩ := ok_of_bind hvalue
          have htruth := Except.ok.inj hvalue
          simp only [Bool.false_eq_true, if_false] at htruth
          rw [betweenAsymmetric_eq, truthAnd_eq_isTrue] at htruth
          rw [List.mem_append, Option.mem_toList, Option.mem_toList] at hmem
          obtain hmem | hmem := hmem
          · exact trueFor_keyCondition hmem (by simp) hx hy hlower htruth.1
          · exact trueFor_keyCondition hmem (by simp) hx hz hupper htruth.2
      · simp at hmem

theorem trueFor_keyConditionsOf {positions : List t.Position} {condition : SearchCondition t}
    {row : Row t} (htrue : condition.truth tz row = .ok .isTrue) :
    ∀ c ∈ keyConditionsOf condition positions, c.TrueFor tz positions row := by
  intro c hmem
  obtain ⟨test, htest, hc⟩ := List.mem_flatMap.mp hmem
  exact trueFor_keyConditions (SearchCondition.truth_of_mem_factors htrue test htest) c hc

/-! ## The conditions that a range is made of -/

theorem exists_of_mem_usedConditions {conditions : List KeyCondition}
    {columns : List (KeyColumn × Value)} {i : Nat} {u : UsedCondition}
    (h : u ∈ usedConditions tz conditions columns i) :
    ∃ k c, columns[k]? = some c ∧
      u ∈ usableConditions tz conditions (i + k) c.1.typ c.2 := by
  induction columns generalizing i with
  | nil => simp [usedConditions] at h
  | cons c columns ih =>
      rw [usedConditions] at h
      split at h
      · next u' hlast =>
          obtain rfl | h := List.mem_cons.mp h
          · exact ⟨0, c, rfl, (List.mem_filter.mp (List.mem_of_getLast? hlast)).1⟩
          · obtain ⟨k, c', hc', hu⟩ := ih h
            exact ⟨k + 1, c', hc', by rwa [Nat.add_comm k, ← Nat.add_assoc]⟩
      · exact ⟨0, c, rfl, h⟩

namespace TableKey

variable (key : TableKey t) (condition : SearchCondition t) (row : Row t)

/-- The columns of the key with the values of the row. -/
def valuesOf : List (KeyColumn × Value) :=
  key.columns.map fun c => (c.2, row.data c.1)

def usedConditions (tz : TimeZone) : List UsedCondition :=
  Vsql.usedConditions tz (keyConditionsOf condition key.positions) (key.valuesOf row) 0

/-- Every inexact comparison that the range is made of agrees with the keys. -/
def Exact (tz : TimeZone) : Prop :=
  ∀ u ∈ key.usedConditions condition row tz, Value.isInexact u.row u.value → u.Holds

variable {key condition row}

theorem map_positions : key.columns.map (·.1) = key.positions := by
  cases key with
  | primaryKey => exact (List.map_map ..).trans (List.map_id _)
  | index i => exact List.map_map ..

theorem holdsOfKeys_of_agrees {op : ComparisonOperator} {c : CompareResult} {a b : Bytes}
    (hop : op ≠ .notEqual) (htrue : op.truth c = .isTrue) (h : Agrees c a b) :
    op.holdsOfKeys a b := by
  have hle : c = .isLess ∨ c = .isEqual → a ≤ b := fun hc =>
    hc.elim (fun hc => (h.1 hc).lt.le) fun hc => (h.2.1 hc).le
  have hge : c = .isGreater ∨ c = .isEqual → b ≤ a := fun hc =>
    hc.elim (fun hc => (h.2.2 hc).lt.le) fun hc => (h.2.1 hc).ge
  have heq : c = .isEqual → a = b := h.2.1
  clear h
  cases op <;> cases c <;>
    simp_all [ComparisonOperator.truth, ComparisonOperator.holdsOfKeys]

/-- A WHERE clause that is true for the row is true for the values that are used. -/
theorem compares_of_mem_usedConditions
    (htrue : condition.truth tz row = .ok .isTrue) {u : UsedCondition}
    (hu : u ∈ key.usedConditions condition row tz) :
    ∃ j cmp, u.row = row.data j ∧ u.typ = t.typ j ∧ u.op ≠ .notEqual ∧
      Value.compare tz (row.data j) u.value = .ok cmp ∧ u.op.truth cmp = .isTrue ∧
      u.value.isNull = false ∧ exactCast tz u.value (t.typ j) = .ok u.stored := by
  obtain ⟨k, c, hc, husable⟩ := exists_of_mem_usedConditions hu
  obtain ⟨htyp, hrow, hnull, hcast, hmem⟩ := mem_usableConditions husable
  have hcondition := trueFor_keyConditionsOf htrue _ hmem
  obtain ⟨j, cmp, hj, hcmp, htruth⟩ := hcondition.compares u.value rfl
  rw [Nat.zero_add] at hj
  have hcolumn : c.1.typ = t.typ j ∧ c.2 = row.data j := by
    rw [← map_positions, List.getElem?_map] at hj
    rw [valuesOf, List.getElem?_map] at hc
    obtain ⟨column, hcolumn, rfl⟩ := Option.map_eq_some_iff.mp hj
    rw [hcolumn] at hc
    cases hc
    refine ⟨?_, rfl⟩
    have hmem := List.mem_of_getElem? hcolumn
    cases key with
    | primaryKey =>
        obtain ⟨j, -, rfl⟩ := List.mem_map.mp hmem
        rfl
    | index i =>
        obtain ⟨ic, -, rfl⟩ := List.mem_map.mp hmem
        rfl
  rw [hcolumn.1] at htyp hcast
  rw [hcolumn.2] at hrow
  exact ⟨j, cmp, hrow, htyp, hcondition.op, hcmp, htruth, hnull, hcast⟩

theorem isNull_of_compare {x y : Value} {cmp : CompareResult} {op : ComparisonOperator}
    (hcmp : Value.compare tz x y = .ok cmp) (htruth : op.truth cmp = .isTrue) :
    x.isNull = false := by
  by_contra hnull
  rw [Bool.not_eq_false] at hnull
  rw [Value.compare, if_pos (.inl hnull)] at hcmp
  cases hcmp
  cases op <;> cases htruth

/-- An exact comparison puts the value of the row on its side of the stored value. -/
theorem holds_of_not_isInexact (htrue : condition.truth tz row = .ok .isTrue)
    {u : UsedCondition} (hu : u ∈ key.usedConditions condition row tz)
    (hexact : Value.isInexact u.row u.value = false) : u.Holds := by
  obtain ⟨j, cmp, hrow, htyp, hop, hcmp, htruth, hvalue, hcast⟩ :=
    compares_of_mem_usedConditions htrue hu
  have hnull := isNull_of_compare hcmp htruth
  have hhas := row.stored j hnull
  obtain ⟨hcast', hequal⟩ := exactCast_eq_ok hcast
  have hstored := storedAs_cast hvalue hcast'
  rw [hrow] at hexact
  have hagrees := agrees_stored hnull hstored.notNull hvalue
    (hhas.typ.trans hstored.typ.symm)
    (fun hdec => by rw [hhas.scale (hhas.typ ▸ hdec), hstored.scale (hhas.typ ▸ hdec)])
    (isNaN_exactCast hvalue (fun happrox => by
      rw [Value.isInexact, hhas.typ, if_pos happrox, Bool.or_eq_false_iff] at hexact
      exact hexact.2) hcast) hexact hcmp hequal
  rw [hhas.typ] at hagrees
  rw [UsedCondition.Holds, UsedCondition.key, UsedCondition.bound, htyp, hrow]
  exact holdsOfKeys_of_agrees hop htruth hagrees

/-! ## The rows of a plan -/

theorem isKey_start (key : TableKey t) : IsKey key.start := by
  cases key with
  | primaryKey => exact ⟨82, by simp [start, rowKeyPrefix], by decide⟩
  | index i => exact ⟨88, by simp [start, indexEntryPrefix], by decide⟩

theorem has_of_mem_valuesOf : ∀ c ∈ key.valuesOf row, c.1.Has c.2 := by
  intro c hc
  obtain ⟨column, hcolumn, rfl⟩ := List.mem_map.mp hc
  cases key with
  | primaryKey =>
      obtain ⟨j, hj, rfl⟩ := List.mem_map.mp hcolumn
      exact ⟨row.stored j, fun _ => row.notNull j (t.primaryKey_notNull j hj)⟩
  | index i =>
      obtain ⟨ic, -, rfl⟩ := List.mem_map.mp hcolumn
      exact ⟨row.stored ic.position, by simp⟩

/-- The key of a row is its values, and what makes it the key of one row. -/
theorem exists_keyOf (key : TableKey t) (row : Row t) :
    ∃ s, key.keyOf row = key.start ++ (keyParts (key.valuesOf row) ++ s) := by
  have hparts : ∀ key : TableKey t, parts key.columns row = keyParts (key.valuesOf row) := by
    intro key
    rw [parts, keyParts, valuesOf, List.flatMap_map]
  cases key with
  | primaryKey =>
      rw [keyOf, Row.rowId]
      split
      · next hnone => exact ⟨row.id, by simp [start, keyParts, valuesOf, columns, hnone]⟩
      · exact ⟨[], by rw [hparts, List.append_nil]; rfl⟩
  | index i =>
      exact ⟨row.rowId, by rw [keyOf, hparts, List.append_assoc]; rfl⟩

/-- A row that the WHERE clause is true for is in the range if and only if every
inexact comparison agrees with the keys. -/
theorem inRange_iff (htrue : condition.truth tz row = .ok .isTrue) :
    InRange (key.range tz condition) (key.keyOf row) ↔ key.Exact condition row tz := by
  obtain ⟨s, hs⟩ := exists_keyOf key row
  have hcolumns : key.columns.map (·.2) = (key.valuesOf row).map (·.1) := by
    rw [valuesOf, List.map_map]
    rfl
  rw [hs, range, keyRange, hcolumns, inRange_keyRangeFrom_iff key.isKey_start
    has_of_mem_valuesOf]
  · refine ⟨fun h u hu _ => h u hu, fun h u hu => ?_⟩
    cases hexact : Value.isInexact u.row u.value with
    | true => exact h u hu hexact
    | false => exact holds_of_not_isInexact htrue hu hexact
  · intro u hu
    obtain ⟨j, cmp, hrow, -, -, hcmp, htruth, -, -⟩ :=
      compares_of_mem_usedConditions htrue hu
    rw [hrow]
    exact isNull_of_compare hcmp htruth

theorem mem_rangeScan {entries : List (Bytes × Row t)} {rows : List (Row t)}
    {range : Bytes × Bytes} (hentries : entries.Perm (rows.map fun row => (key.keyOf row, row)))
    (p : Row t → Bool) (hp : ∀ row ∈ rows, p row = true → InRange range (key.keyOf row)) :
    ((rangeScan entries range).filter p).Perm (rows.filter p) := by
  have hscan : (rangeScan entries range).Perm
      (rows.filter fun row => decide (range.1 ≤ key.keyOf row ∧ key.keyOf row ≤ range.2)) := by
    have hmap := (hentries.filter fun k => decide (range.1 ≤ k.1 ∧ k.1 ≤ range.2)).map (·.2)
    rwa [List.filter_map, List.map_map, Function.comp_def, Function.comp_def, List.map_id'] at hmap
  refine (hscan.filter p).trans (List.Perm.of_eq ?_)
  rw [List.filter_filter]
  refine List.filter_congr fun row hrow => ?_
  cases hrow' : p row with
  | false => rfl
  | true =>
      have hin := hp row hrow hrow'
      simp [hin.1, hin.2.le]

/-- A row that the WHERE clause is true for is in the range, before its last key, if
and only if every inexact comparison that the range is made of agrees with the keys;
and if they all do then reading the range does not lose a row. -/
theorem range_covers (key : TableKey t) (condition : SearchCondition t) (tz : TimeZone) :
    (∀ row : Row t, condition.truth tz row = .ok .isTrue →
      (InRange (key.range tz condition) (key.keyOf row) ↔ key.Exact condition row tz)) ∧
    ∀ (rows : List (Row t)) (entries : List (Bytes × Row t)) (kept : List (Row t)),
      entries.Perm (rows.map fun row => (key.keyOf row, row)) →
      (∀ row ∈ rows, condition.truth tz row = .ok .isTrue → key.Exact condition row tz) →
      condition.execute tz rows = .ok kept →
      ∃ kept', condition.execute tz (rangeScan entries (key.range tz condition)) = .ok kept' ∧
        kept'.Perm kept := by
  refine ⟨fun row htrue => inRange_iff htrue, fun rows entries kept hentries hexact hkept => ?_⟩
  obtain ⟨hok, rfl⟩ := SearchCondition.execute_eq_ok.mp hkept
  refine ⟨_, SearchCondition.execute_eq_ok.mpr ⟨fun row hrow => ?_, rfl⟩, ?_⟩
  · obtain ⟨entry, hentry, rfl⟩ := List.mem_map.mp hrow
    have hmem := hentries.mem_iff.mp (List.mem_filter.mp hentry).1
    obtain ⟨row', hrow', rfl⟩ := List.mem_map.mp hmem
    exact hok row' hrow'
  · refine mem_rangeScan hentries _ fun row hrow htrue => ?_
    rw [decide_eq_true_eq] at htrue
    exact (inRange_iff htrue).mpr (hexact row hrow htrue)

end TableKey

/-! ## A key of two columns -/

namespace TwoColumns

/-- `CREATE TABLE t (b BOOLEAN, n BIGINT, PRIMARY KEY (b, n))` -/
def table : Table where
  id := 1
  columns := [{ typ := .boolean, notNull := true }, { typ := .bigint, notNull := true }]
  primaryKey := [0, 1]
  primaryKey_notNull := by decide

def boolean (b : Bool) : Value :=
  ⟨{ typ := .boolean, notNull := true }, some (.bool b), by simp [Content.Fits]⟩

def number (n : Int) (h : -2 ^ 63 ≤ n ∧ n < 2 ^ 63) : Value :=
  ⟨{ typ := .bigint, notNull := true }, some (.int n), by
    simpa [Content.Fits, SqlType.isInteger, SqlType.intBits] using h⟩

def row (b : Bool) (n : Int) (h : -2 ^ 63 ≤ n ∧ n < 2 ^ 63) : Row table where
  id := []
  data
    | ⟨0, _⟩ => boolean b
    | ⟨1, _⟩ => number n h
  stored
    | ⟨0, _⟩, _ => ⟨rfl, rfl, fun _ => rfl⟩
    | ⟨1, _⟩, _ => ⟨rfl, rfl, fun _ => rfl⟩
  notNull
    | ⟨0, _⟩, _ => rfl
    | ⟨1, _⟩, _ => rfl

def rowSeven : Row table := row true 7 (by decide)

def rowFalse : Row table := row false 7 (by decide)

def approximate (x : Int) : Operand table :=
  .value .doublePrecision (.ok ⟨{ typ := .doublePrecision },
    some (.f64 (BinaryFloat.ofInt x)), by simp [Content.Fits]⟩)

/-- `b = TRUE AND n BETWEEN 5 AND 9E0` -/
def trueAndBetween : SearchCondition table where
  term := .and
    (.factor { expr := .predicate (.comparison (.column ⟨0, by decide⟩) .equal
      (.value .boolean (.ok (boolean true)))) })
    { expr := .predicate (.between false false (.column ⟨1, by decide⟩)
      (.value .bigint (.ok (number 5 (by decide)))) (approximate 9)) }

end TwoColumns

section

open TwoColumns

theorem TableKey.range_covers_seven :
    InRange (TableKey.primaryKey.range noTimeZone trueAndBetween)
        (TableKey.primaryKey.keyOf rowSeven) ∧
      ∃ kept, trueAndBetween.execute noTimeZone
          (rangeScan [(TableKey.primaryKey.keyOf rowFalse, rowFalse),
            (TableKey.primaryKey.keyOf rowSeven, rowSeven)]
            (TableKey.primaryKey.range noTimeZone trueAndBetween)) = .ok kept ∧
        kept.Perm [rowSeven] := by
  have htrue : trueAndBetween.truth noTimeZone rowSeven = .ok .isTrue := by decide +kernel
  have hfalse : trueAndBetween.truth noTimeZone rowFalse = .ok .isFalse := by decide +kernel
  have hexact : TableKey.primaryKey.Exact trueAndBetween rowSeven noTimeZone := by
    have hall : ∀ u ∈ TableKey.primaryKey.usedConditions trueAndBetween rowSeven noTimeZone,
        u.Holds := by decide +kernel
    exact fun u hu _ => hall u hu
  obtain ⟨hin, hscan⟩ := TableKey.range_covers .primaryKey trueAndBetween noTimeZone
  refine ⟨(hin rowSeven htrue).mpr hexact,
    hscan [rowFalse, rowSeven] _ [rowSeven] (.refl _) ?_ ?_⟩
  · intro r hr htruth
    obtain rfl | rfl : r = rowFalse ∨ r = rowSeven := by simpa using hr
    · rw [hfalse] at htruth
      cases htruth
    · exact hexact
  · rw [SearchCondition.execute, hfalse, SearchCondition.execute, htrue]
    rfl

end

/-! ## An approximate literal -/

namespace ApproximateLiteral

/-- `CREATE TABLE t (id BIGINT PRIMARY KEY)` -/
def table : Table where
  id := 1
  columns := [{ typ := .bigint, notNull := true }]
  primaryKey := [0]
  primaryKey_notNull := by decide

def value (n : Int) (h : -2 ^ 63 ≤ n ∧ n < 2 ^ 63) : Value :=
  ⟨{ typ := .bigint, notNull := true }, some (.int n), by
    simpa [Content.Fits, SqlType.isInteger, SqlType.intBits] using h⟩

def idColumn : table.Position := ⟨0, by decide⟩

def row (n : Int) (h : -2 ^ 63 ≤ n ∧ n < 2 ^ 63) : Row table where
  id := []
  data _ := value n h
  stored j _ := by
    obtain ⟨j, hj⟩ := j
    obtain rfl : j = 0 := Nat.lt_one_iff.mp hj
    exact ⟨rfl, rfl, fun _ => rfl⟩
  notNull _ _ := rfl

def rowRounded : Row table := row (2 ^ 54 - 1) (by decide)

/-- `id = x`, where `x` is a DOUBLE PRECISION. -/
def idEquals (x : Int) : SearchCondition table where
  term := .factor
    { expr := .predicate (.comparison (.column idColumn) .equal
        (.value .doublePrecision
          (.ok ⟨{ typ := .doublePrecision }, some (.f64 (BinaryFloat.ofInt x)), by
            simp [Content.Fits]⟩))) }

end ApproximateLiteral

section

open ApproximateLiteral

/-- The row is equal to the literal as an `f64`, but is not in the range. -/
theorem TableKey.not_range_covers_rounded :
    (idEquals (2 ^ 54)).truth noTimeZone rowRounded = .ok .isTrue ∧
      ¬((TableKey.primaryKey.range noTimeZone (idEquals (2 ^ 54))).1 ≤
          TableKey.primaryKey.keyOf rowRounded ∧
        TableKey.primaryKey.keyOf rowRounded ≤
          (TableKey.primaryKey.range noTimeZone (idEquals (2 ^ 54))).2) := by
  decide +kernel

end

end Vsql
