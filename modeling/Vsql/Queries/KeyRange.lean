import Mathlib.Data.List.Induction
import Vsql.Queries.SearchCondition
import Vsql.Values.KeyOrder

/-!
# Key ranges

The conditions of a WHERE clause that compare a column of a key with a value
that is the same for every row, and the range of keys that they allow.  Each
column that is compared with = adds its value to the start of every key in the
range, until a column that is not, which can have a lower and an upper bound.
-/

namespace Vsql

open Foundation
open Foundation.OrderedCode

/-! ## Keys -/

/-- How a column of a key is encoded. -/
structure KeyColumn where
  typ : DataType
  nullable : Bool := false
  desc : Bool := false

/-- The start of the key of the column, for a value that has been written. -/
def KeyColumn.part (c : KeyColumn) (value : Bytes) : Bytes :=
  let part := (if c.nullable then [1] else []) ++ value
  if c.desc then part.map (~~~ ·) else part

def KeyColumn.valuePart (c : KeyColumn) (value : Value) : Bytes :=
  if c.nullable ∧ value.isNull then (if c.desc then [~~~0] else [0])
  else c.part (writeKeyValue value c.typ.typ)

structure IndexColumn (t : Table) where
  position : t.Position
  desc : Bool := false

structure Index (t : Table) where
  id : Nat
  columns : List (IndexColumn t)

/-- What the rows of a table can be found with. -/
inductive TableKey (t : Table) where
  | primaryKey
  | index (i : Index t)

def rowKeyPrefix (id : Nat) : Bytes := 82 :: bigEndian 8 id

def indexEntryPrefix (id : Nat) : Bytes := 88 :: bigEndian 8 id

namespace TableKey

variable {t : Table}

def start : TableKey t → Bytes
  | .primaryKey => rowKeyPrefix t.id
  | .index i => indexEntryPrefix i.id

def positions : TableKey t → List t.Position
  | .primaryKey => t.primaryKey
  | .index i => i.columns.map (·.position)

/-- The columns of the key, with their positions in the table. -/
def columns : TableKey t → List (t.Position × KeyColumn)
  | .primaryKey => t.primaryKey.map fun j => (j, { typ := t.typ j })
  | .index i => i.columns.map fun c =>
      (c.position, { typ := t.typ c.position, nullable := true, desc := c.desc })

/-- The value of each column of a row, as it is written in the key. -/
def parts (columns : List (t.Position × KeyColumn)) (row : Row t) : Bytes :=
  columns.flatMap fun c => c.2.valuePart (row.data c.1)

end TableKey

/-- The row ID: the PRIMARY KEY, if there is one. -/
def Row.rowId {t : Table} (row : Row t) : Bytes :=
  if t.primaryKey = [] then row.id else TableKey.parts TableKey.primaryKey.columns row

/-- `object_key` of the row, or `entry_key` of its entry in the index. -/
def TableKey.keyOf {t : Table} (key : TableKey t) (row : Row t) : Bytes :=
  match key with
  | .primaryKey => rowKeyPrefix t.id ++ row.rowId
  | .index i =>
      indexEntryPrefix i.id ++ TableKey.parts (TableKey.index i).columns row ++ row.rowId

/-! ## Conditions -/

structure KeyCondition where
  /-- The position of the column in the key. -/
  column : Nat
  op : ComparisonOperator
  value : Except Failure Value

section

variable {t : Table}

/-- The position of a column of the table in the key. -/
def keyColumn (positions : List t.Position) (column : t.Position) : Option Nat :=
  positions.zipIdx.foldl (fun found c => if c.1 = column then some c.2 else found) none

def keyCondition (positions : List t.Position) (columnSide : Operand t)
    (op : ComparisonOperator) (valueSide : Operand t) : Option KeyCondition :=
  match columnSide, valueSide with
  | .column j, .value typ run =>
      match keyColumn positions j with
      | some i =>
          if SqlType.isKeyComparable (t.typ j).typ typ then some ⟨i, op, run⟩ else none
      | none => none
  | _, _ => none

/-- The conditions of one part of an AND.  BETWEEN is the same as two conditions. -/
def keyConditions (positions : List t.Position) (test : BooleanTest t) :
    List KeyCondition :=
  if test.value.isSome || test.inverse then []
  else
    match test.expr with
    | .predicate (.comparison left op right) =>
        if op = .notEqual then []
        else
          ((keyCondition positions left op right).or
            (keyCondition positions right op.reverse left)).toList
    | .predicate (.between false false expr left right) =>
        (keyCondition positions expr .greaterThanOrEqual left).toList ++
          (keyCondition positions expr .lessThanOrEqual right).toList
    | _ => []

def keyConditionsOf (condition : SearchCondition t) (positions : List t.Position) :
    List KeyCondition :=
  condition.factors.flatMap (keyConditions positions)

end

/-! ## Ranges -/

section

variable (sessionTimeZone : TimeZone)

/-- The value as the column stores it, if the condition can be used. -/
def storedValue (condition : KeyCondition) (typ : DataType) : Option Value :=
  match condition.value with
  | .ok value =>
      if value.isNull then none else (exactCast sessionTimeZone value typ).toOption
  | .error _ => none

def conditionKeyValue (condition : KeyCondition) (typ : DataType) : Option Bytes :=
  (storedValue sessionTimeZone condition typ).map fun stored =>
    writeKeyValue stored typ.typ

/-- What the conditions of a column say, where no bytes are no bound. -/
structure KeyBounds where
  equal : Bytes := []
  lower : Bytes := []
  upper : Bytes := []

def KeyBounds.add (b : KeyBounds) (op : ComparisonOperator) (value : Bytes) :
    KeyBounds :=
  match op with
  | .equal => { b with equal := value }
  | .greaterThan | .greaterThanOrEqual =>
      if b.lower = [] ∨ b.lower < value then { b with lower := value } else b
  | _ => if b.upper = [] ∨ value < b.upper then { b with upper := value } else b

def keyBounds (conditions : List KeyCondition) (i : Nat) (typ : DataType) : KeyBounds :=
  conditions.foldl
    (fun b condition =>
      if condition.column ≠ i then b
      else
        match conditionKeyValue sessionTimeZone condition typ with
        | some value => b.add condition.op value
        | none => b)
    {}

/-- The first key after every key that starts with `key`. -/
def nextKey (key : Bytes) : Bytes :=
  match key.reverse.dropWhile (· == 255) with
  | [] => []
  | last :: rest => rest.reverse ++ [last + 1]

/-- The range of the columns of a key from the one at `i`. -/
def keyRangeFrom (conditions : List KeyCondition) :
    List KeyColumn → Nat → Bytes → Bytes × Bytes
  | [], _, key => (key, nextKey key)
  | column :: columns, i, key =>
      let b := keyBounds sessionTimeZone conditions i column.typ
      if b.equal ≠ [] then
        keyRangeFrom conditions columns (i + 1) (key ++ column.part b.equal)
      else if b.lower = [] ∧ b.upper = [] then (key, nextKey key)
      else
        -- A DESC column has the largest values first.
        (key ++ column.part (if column.desc then b.upper else b.lower),
          nextKey (key ++ column.part (if column.desc then b.lower else b.upper)))

def keyRange (start : Bytes) (columns : List KeyColumn)
    (conditions : List KeyCondition) : Bytes × Bytes :=
  keyRangeFrom sessionTimeZone conditions columns 0 start

variable {t : Table}

/-- The range that is read for a WHERE clause. -/
def TableKey.range (key : TableKey t) (condition : SearchCondition t) : Bytes × Bytes :=
  keyRange sessionTimeZone key.start (key.columns.map (·.2))
    (keyConditionsOf condition key.positions)

/-- The rows whose keys are in the range, in the order of the keys. -/
def rangeScan (keys : List (Bytes × Row t)) (range : Bytes × Bytes) : List (Row t) :=
  (keys.filter fun k => decide (range.1 ≤ k.1 ∧ k.1 ≤ range.2)).map (·.2)

end

/-! ## The end of a range -/

theorem nextKey_append (p : Bytes) {x : UInt8} (hx : x ≠ 255) (k : Nat) :
    nextKey (p ++ x :: List.replicate k 255) = p ++ [x + 1] := by
  have hdrop : ∀ k : Nat, (List.replicate k 255 ++ x :: p.reverse).dropWhile (· == 255) =
      x :: p.reverse := by
    intro k
    induction k with
    | zero => simp [hx]
    | succ k ih => rw [List.replicate_succ, List.cons_append, List.dropWhile_cons_of_pos
        (by rfl), ih]
  simp [nextKey, hdrop]

/-- Every key has a byte that is not 255, the first one. -/
def IsKey (key : Bytes) : Prop := ∃ x ∈ key, x ≠ 255

theorem IsKey.append {key : Bytes} (h : IsKey key) (s : Bytes) : IsKey (key ++ s) := by
  obtain ⟨x, hmem, hx⟩ := h
  exact ⟨x, List.mem_append_left s hmem, hx⟩

theorem IsKey.exists_eq {key : Bytes} (h : IsKey key) :
    ∃ p x k, key = p ++ x :: List.replicate k 255 ∧ x ≠ 255 := by
  induction key using List.reverseRecOn with
  | nil => obtain ⟨x, hmem, -⟩ := h; simp at hmem
  | append_singleton key y ih =>
      by_cases hy : y = 255
      · have hkey : IsKey key := by
          obtain ⟨x, hmem, hx⟩ := h
          rw [List.mem_append, List.mem_singleton] at hmem
          obtain hmem | rfl := hmem
          · exact ⟨x, hmem, hx⟩
          · exact absurd hy hx
        obtain ⟨p, x, k, rfl, hx⟩ := ih hkey
        exact ⟨p, x, k + 1, by simp [hy, List.replicate_succ'], hx⟩
      · exact ⟨key, y, 0, by simp, hy⟩

theorem lt_add_one {x : UInt8} (hx : x ≠ 255) : x < x + 1 := by
  have hne : x.toNat ≠ 255 := fun h => hx (by
    rw [← UInt8.toNat_inj]
    exact h)
  have hlt := x.toNat_lt
  rw [UInt8.lt_iff_toNat_lt, UInt8.toNat_add]
  simp only [UInt8.reduceToNat]
  omega

/-- Every key that starts with `key` is before the next one. -/
theorem prefix_lt_nextKey {key a : Bytes} (h : IsKey key) (hpre : key <+: a) :
    a < nextKey key := by
  obtain ⟨p, x, k, rfl, hx⟩ := h.exists_eq
  obtain ⟨s, rfl⟩ := hpre
  rw [nextKey_append p hx, List.append_assoc]
  exact ((Before.of_heads (lt_add_one hx) _ _).prepend p).lt

theorem le_of_lt_succ {x y : UInt8} (h : x < y) : x + 1 ≤ y := by
  have hy := y.toNat_lt
  rw [UInt8.lt_iff_toNat_lt] at h
  rw [UInt8.le_iff_toNat_le, UInt8.toNat_add]
  simp only [UInt8.reduceToNat]
  omega

/-- And every other key after `key` is not. -/
theorem nextKey_le_of_before {key a : Bytes} (h : Before key a) (hkey : IsKey key) :
    nextKey key ≤ a := by
  obtain ⟨p, x, k, rfl, hx⟩ := hkey.exists_eq
  obtain ⟨q, y, z, s, s', hq, rfl, hyz⟩ := h
  rw [nextKey_append p hx]
  obtain ⟨r, rfl, hr⟩ | ⟨r, rfl, hr⟩ := List.append_eq_append_iff.mp hq
  · cases r with
    | nil =>
        obtain ⟨rfl, -⟩ := List.cons.inj hr
        obtain hlt | rfl := lt_or_eq_of_le (le_of_lt_succ hyz)
        · exact ((Before.of_heads hlt [] s').prepend _).lt.le.trans_eq (by simp)
        · exact prefix_le ⟨s', by simp⟩
    | cons x' r =>
        -- The strings would differ after the last byte that is not 255.
        have hmem : y ∈ List.replicate k (255 : UInt8) := by
          rw [(List.cons.inj hr).2]
          simp
        have hy := List.eq_of_mem_replicate hmem
        exact absurd (hy ▸ hyz) (by
          rw [UInt8.lt_iff_toNat_lt]
          have := z.toNat_lt
          simp only [UInt8.reduceToNat]
          omega)
  · cases r with
    | nil =>
        obtain ⟨rfl, -⟩ := List.cons.inj hr
        obtain hlt | rfl := lt_or_eq_of_le (le_of_lt_succ hyz)
        · exact ((Before.of_heads hlt [] s').prepend _).lt.le.trans_eq (by simp)
        · exact prefix_le ⟨s', by simp⟩
    | cons y' r =>
        obtain ⟨rfl, -⟩ := List.cons.inj hr
        rw [List.append_assoc]
        exact ((Before.of_heads hyz (r ++ [x + 1]) s').prepend q).lt.le

theorem lt_nextKey_iff {p a b : Bytes} (hp : IsKey p) (h : Comparable a b) (s : Bytes) :
    p ++ (b ++ s) < nextKey (p ++ a) ↔ ¬Before a b := by
  obtain h | h | h := h
  · refine iff_of_true (prefix_lt_nextKey (hp.append a) ?_) fun hab => hab.not_isPrefix h
    exact List.prefix_append_right_inj p |>.mpr (h.trans (List.prefix_append b s))
  · refine iff_of_false (not_lt.mpr (nextKey_le_of_before ?_ (hp.append a)))
      (not_not.mpr h)
    have hbefore := (h.append [] s).prepend p
    rwa [List.append_nil] at hbefore
  · refine iff_of_true ?_ h.asymm
    have hlt := ((h.append s []).prepend p).lt
    rw [List.append_nil] at hlt
    exact hlt.trans (prefix_lt_nextKey (hp.append a) (List.prefix_refl _))

/-! ## The parts of a key -/

theorem KeyColumn.before_part (c : KeyColumn) {a b : Bytes} (h : Before a b) :
    if c.desc then Before (c.part b) (c.part a) else Before (c.part a) (c.part b) := by
  have hpart := h.prepend (if c.nullable then [1] else [])
  by_cases hdesc : c.desc
  · simp only [part, hdesc, if_true]
    exact hpart.map_of_reverses fun x y hxy => complement_lt_complement hxy
  · simpa only [part, hdesc, if_false, Bool.false_eq_true] using hpart

theorem KeyColumn.part_separated (c : KeyColumn) {a b : Bytes}
    (h : Before a b ∨ Before b a) :
    Before (c.part a) (c.part b) ∨ Before (c.part b) (c.part a) := by
  have hside : ∀ a b : Bytes, Before a b →
      Before (c.part a) (c.part b) ∨ Before (c.part b) (c.part a) := by
    intro a b hab
    have hpart := c.before_part hab
    split at hpart
    · exact .inr hpart
    · exact .inl hpart
  exact h.elim (hside a b) fun hba => (hside b a hba).symm

theorem KeyColumn.prefix_part (c : KeyColumn) {a b : Bytes} (h : a <+: b) :
    c.part a <+: c.part b := by
  have hpart : (if c.nullable then [1] else []) ++ a <+:
      (if c.nullable then [1] else []) ++ b := List.prefix_append_right_inj _ |>.mpr h
  unfold part
  by_cases hdesc : c.desc
  · simp only [hdesc, if_true]
    exact hpart.map _
  · simpa only [hdesc, if_false, Bool.false_eq_true] using hpart

theorem KeyColumn.comparable_part (c : KeyColumn) {a b : Bytes} (h : Comparable a b) :
    Comparable (c.part a) (c.part b) :=
  h.imp c.prefix_part c.part_separated

/-- The bytes of a DESC column sort the other way around. -/
theorem KeyColumn.before_part_iff (c : KeyColumn) {a b : Bytes} (h : Comparable a b) :
    (Before (c.part a) (c.part b) ↔ if c.desc then Before b a else Before a b) ∧
      (Before (c.part b) (c.part a) ↔ if c.desc then Before a b else Before b a) := by
  obtain h | h | h := h
  · have hpart := c.prefix_part h
    have hnot : ∀ {x y : Bytes}, x <+: y → ¬Before x y ∧ ¬Before y x := fun hxy =>
      ⟨fun hlt => hlt.not_isPrefix hxy, fun hlt => hlt.lt.not_ge (prefix_le hxy)⟩
    split <;> simp [hnot h, hnot hpart]
  · have hpart := c.before_part h
    split at hpart <;> rename_i hdesc <;>
      simp [hdesc, h, hpart, h.asymm, hpart.asymm]
  · have hpart := c.before_part h
    split at hpart <;> rename_i hdesc <;>
      simp [hdesc, h, hpart, h.asymm, hpart.asymm]

end Vsql
