import Vsql.Foundation.SortedGroups
import Vsql.Queries.SetOperation
import Vsql.Values.NumericArithmetic
import Vsql.Values.NumericText

/-!
# GROUP BY

The rows are sorted by the grouping columns, and each row is put in the group of the row before
it if their values are equal.  There is one group for each class of equal rows if and only if
the comparison is transitive, and the aggregate functions are computed over the rows of a group.
-/

namespace Vsql

open Foundation
open Foundation.MergeSort

variable {tz : TimeZone}

/-! ## Aggregate functions -/

inductive SetFunction where
  | count
  | sum
  | avg
  | max
  | min

def setFunctionType (name : SetFunction) (t : DataType) : DataType :=
  match name with
  | .count => { typ := .integer }
  | .sum =>
      if t.typ.isInteger then { typ := .bigint }
      else if t.typ.isExactDecimal then { typ := t.typ, scale := t.scale }
      else { typ := t.typ }
  | _ => { typ := t.typ, size := t.size, scale := t.scale }

def nonNullValues (values : List Value) : List Value := values.filter (!·.isNull)

/-- The first value of each key. -/
def distinctValuesFrom (tz : TimeZone) (typ : DataType) (seen : List Bytes) :
    List Value → Except Failure (List Value)
  | [] => .ok []
  | value :: values => do
      let k := writeKeyValue (← cast tz value typ) typ.typ
      if seen.contains k then distinctValuesFrom tz typ seen values
      else do
        let result ← distinctValuesFrom tz typ (k :: seen) values
        pure (value :: result)

def distinctValues (tz : TimeZone) (values : List Value) (typ : DataType) :
    Except Failure (List Value) :=
  distinctValuesFrom tz typ [] (nonNullValues values)

def newIntegerValue (x : Int) : Except Failure Value := Value.ofContent { typ := .integer } (.int x)

def approximateValue (x : F64) (typ : SqlType) : Except Failure Value :=
  if typ = .real then
    if (asReal x).isInfinite || (!x.isZero && (asReal x).isZero) then .error sqlstate22003
    else Value.ofContent { typ := .real } (.f64 (asReal x))
  else if x.isInfinite then .error sqlstate22003
  else Value.ofContent { typ := .doublePrecision } (.f64 x)

def extreme (tz : TimeZone) (want : CompareResult) (first : Value) (values : List Value) :
    Except Failure Value :=
  values.foldlM (fun result value => do
    let cmp ← Value.compare tz value result
    pure (if cmp = want then value else result)) first

def sumF64 (values : List Value) : F64 :=
  values.foldl (fun sum value => sum.add value.f64Value) (.ofInt 0)

def evalSetFunction (tz : TimeZone) (name : SetFunction) (allValues : List Value)
    (t : DataType) : Except Failure Value :=
  let values := nonNullValues allValues
  let typ := setFunctionType name t
  match name, values with
  | .count, _ => newIntegerValue values.length
  | _, [] => .ok (Value.null typ)
  | .max, first :: rest => extreme tz .isGreater first rest
  | .min, first :: rest => extreme tz .isLess first rest
  | _, first :: rest =>
      if typ.typ.isApproximate then
        let sum := sumF64 values
        approximateValue
          (match name with
          | .avg => sum.div (.ofInt values.length)
          | _ => sum) typ.typ
      else do
        let sum := rest.foldl (fun sum value => sum.add value.asExactNumeric) first.asExactNumeric
        let result ← match name with
          | .avg => sum.divide (newNumericFromString (intText values.length))
          | _ => pure sum
        cast tz (← newNumericValueFromNumeric result) typ

section

variable (Session : Type)

/-- An expression that was compiled. -/
abbrev Compiled := Rows.Row → StateT Session (Except Failure) Value

/-- An aggregate function with the text that its result is stored under. -/
inductive AggregateFunction where
  | count (key : Text) (filter : Option (Compiled Session))
  | routine (key : Text) (functionName : SetFunction) (arg : Compiled Session)
      (argTyp : DataType) (distinct : Bool) (filter : Option (Compiled Session))

end

variable {Session : Type}

def AggregateFunction.key : AggregateFunction Session → Text
  | .count key _ => key
  | .routine key _ _ _ _ _ => key

def filterRows (filter : Option (Compiled Session)) (rows : List Rows.Row) :
    StateT Session (Except Failure) (List Rows.Row) :=
  match filter with
  | none => pure rows
  | some f => rows.filterM fun row => do
      let v ← f row
      pure v.boolValue

/-- The result for a group, and whether NULLs were eliminated. -/
def AggregateFunction.eval (tz : TimeZone) (group : List Rows.Row) :
    AggregateFunction Session → StateT Session (Except Failure) (Value × Bool)
  | .count _ filter => do
      let rows ← filterRows filter group
      let v ← StateT.lift (newIntegerValue rows.length)
      pure (v, false)
  | .routine _ functionName arg argTyp distinct filter => do
      let rows ← filterRows filter group
      let all ← rows.mapM arg
      let values ← if distinct then StateT.lift (distinctValues tz all argTyp) else pure all
      let v ← StateT.lift (evalSetFunction tz functionName values argTyp)
      pure (v, all.any (·.isNull))

/-! ## Groups -/

/-- The grouping columns read the data of a row. -/
structure GroupOperation (Session : Type) where
  groupExprs : List (Rows.Row → Except Failure Value)
  aggregates : List (AggregateFunction Session)

def equalRows (tz : TimeZone) (last row : Rows.Row) :
    List (Rows.Row → Except Failure Value) → Except Failure Bool
  | [] => .ok true
  | expr :: groupExprs => do
      let left ← expr last
      let right ← expr row
      if left.isNull && right.isNull then equalRows tz last row groupExprs
      else do
        let cmp ← Value.compare tz left right
        if cmp ≠ .isEqual then .ok false else equalRows tz last row groupExprs

namespace GroupOperation

def addRow (o : GroupOperation Session) (tz : TimeZone) (sets : List (List Rows.Row))
    (row : Rows.Row) : Except Failure (List (List Rows.Row)) :=
  match sets.getLast? with
  | none => .error outOfRange
  | some set =>
      match set.getLast? with
      | none => .ok (sets.dropLast ++ [set ++ [row]])
      | some last => do
          let equal ← equalRows tz last row o.groupExprs
          if equal then .ok (sets.dropLast ++ [set ++ [row]]) else .ok (sets ++ [[row]])

/-- Without a GROUP BY the whole table is a single group, even if it has no rows. -/
def createSets (o : GroupOperation Session) (tz : TimeZone) (rows : List Rows.Row) :
    Except Failure (List (List Rows.Row)) :=
  rows.foldlM (o.addRow tz)
    (if 0 < rows.length ∨ o.groupExprs.length = 0 then [[]] else [])

def finalRow : List Rows.Row → Rows.Row
  | [] => Rows.newRow .empty
  | row :: _ => Rows.newRow row.data

/-- Stores the result of an aggregate function for each of the sets. -/
def storeResults (tz : TimeZone) (aggregate : AggregateFunction Session) :
    List (List Rows.Row) → List Rows.Row →
      StateT Session (Except Failure) (List Rows.Row × Bool)
  | group :: sets, row :: finalRows => do
      let (value, isEliminated) ← aggregate.eval tz group
      let (finalRows, nullEliminated) ← storeResults tz aggregate sets finalRows
      pure ({ row with data := row.data.set aggregate.key value } :: finalRows,
        isEliminated || nullEliminated)
  | _, finalRows => pure (finalRows, false)

def storeAggregates (tz : TimeZone) (sets : List (List Rows.Row)) :
    List (AggregateFunction Session) → List Rows.Row →
      StateT Session (Except Failure) (List Rows.Row × Bool)
  | [], finalRows => pure (finalRows, false)
  | aggregate :: aggregates, finalRows => do
      let (finalRows, isEliminated) ← storeResults tz aggregate sets finalRows
      let (finalRows, nullEliminated) ← storeAggregates tz sets aggregates finalRows
      pure (finalRows, isEliminated || nullEliminated)

/-- The rows for the sets, and the warning `01003` if NULLs were eliminated. -/
def aggregate (o : GroupOperation Session) (tz : TimeZone) (addWarning : Session → Session)
    (sets : List (List Rows.Row)) : StateT Session (Except Failure) (List Rows.Row) := do
  let (finalRows, nullEliminated) ← storeAggregates tz sets o.aggregates (sets.map finalRow)
  if nullEliminated then modify addWarning
  pure finalRows

def execute (o : GroupOperation Session) (tz : TimeZone) (addWarning : Session → Session)
    (rows : List Rows.Row) : StateT Session (Except Failure) (List Rows.Row) := do
  let sets ← StateT.lift (o.createSets tz rows)
  o.aggregate tz addWarning sets

def order (o : GroupOperation Session) : List SortSpecification := o.groupExprs.map fun _ => ⟨true⟩

def compiledKeys (o : GroupOperation Session) : List (Compiled Session) :=
  o.groupExprs.map fun expr row => StateT.lift (expr row)

/-- The rows do not need to be sorted if all of them belong to the same group. -/
def run (o : GroupOperation Session) (tz : TimeZone) (addWarning : Session → Session)
    (rows : List Rows.Row) : StateT Session (Except Failure) (List Rows.Row) := do
  let rows ←
    if 0 < o.groupExprs.length then OrderOperation.execute tz o.order o.compiledKeys rows
    else pure rows
  o.execute tz addWarning rows

/-! ## Sets of adjacent rows -/

/-- The values of the grouping columns. -/
def keys (o : GroupOperation Session) (row : Rows.Row) : Except Failure (List Value) :=
  o.groupExprs.mapM fun expr => expr row

def key (o : GroupOperation Session) (row : Rows.Row) : List Value := (o.keys row).toOption.getD []

theorem equalRows_eq {groupExprs : List (Rows.Row → Except Failure Value)} {a b : Rows.Row}
    {left right : List Value} (ha : groupExprs.mapM (fun expr => expr a) = .ok left)
    (hb : groupExprs.mapM (fun expr => expr b) = .ok right) :
    equalRows tz a b groupExprs = isDuplicateRow tz left right := by
  induction groupExprs generalizing left right with
  | nil =>
      rw [List.mapM_nil] at ha hb
      cases ha
      rfl
  | cons expr groupExprs ih =>
      rw [List.mapM_cons] at ha hb
      obtain ⟨l, hl, ha⟩ := ok_of_bind ha
      obtain ⟨left, hleft, ha⟩ := ok_of_bind ha
      obtain ⟨r, hr, hb⟩ := ok_of_bind hb
      obtain ⟨right, hright, hb⟩ := ok_of_bind hb
      cases ha
      cases hb
      rw [equalRows, hl, hr, isDuplicateRow, ← ih hleft hright]
      change (if (l.isNull && r.isNull) = true then equalRows tz a b groupExprs
        else Value.compare tz l r >>= _) = _
      -- A NULL is unknown when it is compared with another value, so it is not equal to it.
      have hunknown : (l.isNull ∨ r.isNull) → Value.compare tz l r = .ok .isUnknown :=
        fun hnull => by rw [Value.compare, if_pos hnull]
      cases hlnull : l.isNull <;> cases hrnull : r.isNull
      · rfl
      · rw [hunknown (.inr hrnull)]
        rfl
      · rw [hunknown (.inl hlnull)]
        rfl
      · rfl

variable {o : GroupOperation Session} {K : Set (List Value)}

theorem key_eq {row : Rows.Row} {key : List Value} (h : o.keys row = .ok key) :
    o.key row = key := by
  rw [GroupOperation.key, h]
  rfl

/-- The values of the grouping columns are in `K`. -/
def Has (o : GroupOperation Session) (K : Set (List Value)) (row : Rows.Row) : Prop :=
  ∃ key ∈ K, o.keys row = .ok key

theorem Has.key_mem {row : Rows.Row} (h : o.Has K row) : o.key row ∈ K := by
  obtain ⟨key, hkey, hrow⟩ := h
  rwa [key_eq hrow]

theorem Has.keys_eq {row : Rows.Row} (h : o.Has K row) : o.keys row = .ok (o.key row) := by
  obtain ⟨key, -, hrow⟩ := h
  rw [key_eq hrow, hrow]

/-- The rows have equal values, where NULLs are equal. -/
def same (o : GroupOperation Session) (tz : TimeZone) (a b : Rows.Row) : Bool :=
  rowEqual tz (o.key a) (o.key b)

theorem equalRows_of_has (hK : RowsComparable tz K) {a b : Rows.Row} (ha : o.Has K a)
    (hb : o.Has K b) : equalRows tz a b o.groupExprs = .ok (o.same tz a b) := by
  rw [equalRows_eq ha.keys_eq hb.keys_eq]
  obtain ⟨equal, hequal⟩ := hK _ ha.key_mem _ hb.key_mem
  rw [same, rowEqual, hequal]

/-- The last row is in `set`, and `rows` come after it. -/
theorem foldlM_addRow (hK : RowsComparable tz K) {sets : List (List Rows.Row)}
    {set rows : List Rows.Row} {last : Rows.Row} (hlast : o.Has K last)
    (hrows : ∀ row ∈ rows, o.Has K row) :
    rows.foldlM (o.addRow tz) (sets.reverse ++ [set.reverse ++ [last]]) =
      .ok (List.splitBy.loop (o.same tz) rows last set sets) := by
  induction rows generalizing sets set last with
  | nil => simp [List.splitBy.loop, pure, Except.pure]
  | cons row rows ih =>
      have hrow := hrows row (by simp)
      have hrest : ∀ row ∈ rows, o.Has K row := fun r hr => hrows r (List.mem_cons_of_mem row hr)
      have hstep : o.addRow tz (sets.reverse ++ [set.reverse ++ [last]]) row =
          .ok (if o.same tz last row then sets.reverse ++ [(last :: set).reverse ++ [row]]
            else ((last :: set).reverse :: sets).reverse ++ [[].reverse ++ [row]]) := by
        simp only [addRow, List.getLast?_concat, List.dropLast_concat,
          equalRows_of_has hK hlast hrow]
        cases o.same tz last row <;> simp [Bind.bind, Except.bind]
      rw [List.foldlM_cons, hstep, List.splitBy.loop]
      cases o.same tz last row with
      | true => exact ih hrow hrest
      | false => exact ih hrow hrest

theorem createSets_eq (hK : RowsComparable tz K) (hpos : 0 < o.groupExprs.length)
    {rows : List Rows.Row} (hrows : ∀ row ∈ rows, o.Has K row) :
    o.createSets tz rows = .ok (rows.splitBy (o.same tz)) := by
  cases rows with
  | nil =>
      rw [createSets, if_neg (by simp [hpos.ne'])]
      rfl
  | cons row rows =>
      have hfirst : o.addRow tz [[]] row = .ok [[row]] := rfl
      rw [createSets, if_pos (by simp), List.foldlM_cons, hfirst]
      exact @foldlM_addRow tz _ o K hK [] [] rows row (hrows row (by simp))
        fun r hr => hrows r (List.mem_cons_of_mem row hr)

/-! ## Groups of the sorted rows -/

theorem mapM_lift {α β : Type} {f : α → Except Failure β} {l : List α} {result : List β}
    (h : l.mapM f = .ok result) :
    l.mapM (fun a => StateT.lift (f a) : α → StateT Session (Except Failure) β) =
      pure result := by
  induction l generalizing result with
  | nil =>
      cases h
      rfl
  | cons a l ih =>
      rw [List.mapM_cons] at h
      obtain ⟨b, hb, h⟩ := ok_of_bind h
      obtain ⟨rest, hrest, h⟩ := ok_of_bind h
      cases h
      rw [List.mapM_cons, hb, ih hrest]
      rfl

theorem evaluateKeys_compiledKeys {rows : List Rows.Row} (hrows : ∀ row ∈ rows, o.Has K row)
    (s : Session) :
    OrderOperation.evaluateKeys o.compiledKeys rows s = .ok (rows.map o.key, s) := by
  unfold OrderOperation.evaluateKeys
  rw [OrderOperation.mapM_eq_pure (f := o.key) fun row hrow => ?_]
  · rfl
  · rw [compiledKeys, List.mapM_map]
    exact mapM_lift (hrows row hrow).keys_eq

theorem same_eq_isSame (hlength : ∀ key ∈ K, key.length = o.order.length)
    (hK : Comparable tz o.order K) {a b : Rows.Row} (ha : o.Has K a) (hb : o.Has K b) :
    o.same tz a b = isSame (fun a b => sortKeyLess tz o.order (o.key a) (o.key b)) a b := by
  rw [Bool.eq_iff_iff, isSame_iff, same, rowEqual_iff hlength hK ha.key_mem hb.key_mem]

/-- The groups of rows that were sorted. -/
theorem run_eq (hlength : ∀ key ∈ K, key.length = o.order.length)
    (hK : Comparable tz o.order K) (hpos : 0 < o.groupExprs.length)
    (addWarning : Session → Session) {rows : List Rows.Row} (hrows : ∀ row ∈ rows, o.Has K row)
    (s : Session) : ∃ sorted : List Rows.Row,
      o.run tz addWarning rows s = o.aggregate tz addWarning (sorted.splitBy (o.same tz)) s ∧
      List.Forall₂ (fun p row => rows[p]? = some row)
        (sortedPositions (sortKeyLess tz o.order) (rows.map o.key)) sorted := by
  have hkeys : ∀ key ∈ rows.map o.key, key ∈ K := by
    intro key hkey
    obtain ⟨row, hrow, rfl⟩ := List.mem_map.mp hkey
    exact (hrows row hrow).key_mem
  obtain ⟨sorted, s', hexecute, hsession, hsorted⟩ :=
    OrderOperation.exists_execute hK hkeys (evaluateKeys_compiledKeys hrows s)
  obtain rfl : s' = s := hsession.elim id id
  have hmem : ∀ row ∈ sorted, o.Has K row := by
    intro row hrow
    have hsome := List.mem_map_of_mem (f := some) hrow
    rw [← map_getElem?_eq hsorted] at hsome
    obtain ⟨p, -, hp⟩ := List.mem_map.mp hsome
    exact hrows row (List.mem_of_getElem? hp)
  refine ⟨sorted, ?_, hsorted⟩
  unfold run
  rw [if_pos hpos]
  change (OrderOperation.execute tz o.order o.compiledKeys rows s' >>= _) = _
  rw [hexecute]
  change ((o.createSets tz sorted >>= _) >>= _) = _
  rw [createSets_eq ((rowsComparable_iff hlength).mpr hK) hpos hmem]
  rfl

theorem exists_groups (hlength : ∀ key ∈ K, key.length = o.order.length)
    (hK : Comparable tz o.order K) (htrans : NegTransitive (sortKeyLess tz o.order) K)
    (hpos : 0 < o.groupExprs.length) (addWarning : Session → Session) {rows : List Rows.Row}
    (hrows : ∀ row ∈ rows, o.Has K row) (s : Session) : ∃ groups,
      IsGrouping (o.same tz) rows groups ∧
      o.run tz addWarning rows s = o.aggregate tz addWarning groups s := by
  obtain ⟨sorted, hrun, hsorted⟩ := run_eq hlength hK hpos addWarning hrows s
  have hkeys : ∀ key ∈ rows.map o.key, key ∈ K := by
    intro key hkey
    obtain ⟨row, hrow, rfl⟩ := List.mem_map.mp hkey
    exact (hrows row hrow).key_mem
  have hstable := isStableSort_sortedPositions (asymmetric_sortKeyLess hK) htrans hkeys
  have hperm := perm_of_positions (by simpa using hstable.perm) hsorted
  have hmem : ∀ row ∈ sorted, o.Has K row := fun row hrow => hrows row (hperm.mem_iff.mp hrow)
  let less (a b : Rows.Row) : Bool := sortKeyLess tz o.order (o.key a) (o.key b)
  have hasymm : Asymmetric less {row | o.Has K row} := fun a ha b hb =>
    asymmetric_sortKeyLess hK _ ha.key_mem _ hb.key_mem
  have hless : NegTransitive less {row | o.Has K row} := fun a ha b hb c hc =>
    htrans _ ha.key_mem _ hb.key_mem _ hc.key_mem
  have hpairwise : sorted.Pairwise fun a b => less b a = false :=
    @pairwise_of_ordered _ _ (sortKeyLess tz o.order) o.key K _ _ _ htrans
      (fun row hrow => (hmem row hrow).key_mem) hstable.ordered hsorted
  have hgrouping := isGrouping_splitBy hasymm hless
    (fun a ha b hb => same_eq_isSame hlength hK ha hb) hmem hpairwise
  exact ⟨_, hgrouping.of_perm hperm, hrun⟩

/-! ## The results of the aggregate functions -/

/-- The results are over the rows of the group, and the other values are those of one of them. -/
structure IsGroupRow (tz : TimeZone) (aggregates : List (AggregateFunction Session))
    (group : List Rows.Row) (row : Rows.Row) : Prop where
  value : ∀ name, name ∉ aggregates.map (·.key) →
    row.data.get? name = (finalRow group).data.get? name
  result : ∀ before aggregate after, aggregates = before ++ aggregate :: after →
    aggregate.key ∉ after.map (·.key) → ∃ value isEliminated s s',
      aggregate.eval tz group s = .ok ((value, isEliminated), s') ∧
      row.data.get? aggregate.key = some value

theorem isGroupRow_finalRow (group : List Rows.Row) :
    IsGroupRow tz ([] : List (AggregateFunction Session)) group (finalRow group) where
  value _ _ := rfl
  result before aggregate after h := by simp at h

theorem IsGroupRow.set {aggregates : List (AggregateFunction Session)} {group : List Rows.Row}
    {row : Rows.Row} (h : IsGroupRow tz aggregates group row)
    {aggregate : AggregateFunction Session} {value : Value} {isEliminated : Bool} {s s' : Session}
    (heval : aggregate.eval tz group s = .ok ((value, isEliminated), s')) :
    IsGroupRow tz (aggregates ++ [aggregate]) group
      { row with data := row.data.set aggregate.key value } where
  value name hname := by
    simp only [List.map_append, List.map_cons, List.map_nil, List.mem_append, List.mem_singleton,
      not_or] at hname
    rw [OrderedMap.get?_set, if_neg hname.2, h.value name hname.1]
  result before other after hsplit hlast := by
    rw [OrderedMap.get?_set]
    obtain rfl | ⟨init, last, rfl⟩ := List.eq_nil_or_concat' after
    · obtain ⟨-, hother⟩ := List.append_inj' hsplit rfl
      obtain rfl : aggregate = other := by simpa using hother
      exact ⟨value, isEliminated, s, s', heval, by simp⟩
    · rw [← List.cons_append, ← List.append_assoc] at hsplit
      obtain ⟨hbefore, hother⟩ := List.append_inj' hsplit rfl
      obtain rfl : aggregate = last := by simpa using hother
      simp only [List.map_append, List.map_cons, List.map_nil, List.mem_append,
        List.mem_singleton, not_or] at hlast
      rw [if_neg hlast.2]
      exact h.result before other init hbefore hlast.1

theorem forall₂_storeResults {aggregates : List (AggregateFunction Session)}
    {aggregate : AggregateFunction Session} {sets : List (List Rows.Row)}
    {finalRows result : List Rows.Row} {nullEliminated : Bool} {s s' : Session}
    (hrows : List.Forall₂ (IsGroupRow tz aggregates) sets finalRows)
    (h : storeResults tz aggregate sets finalRows s = .ok ((result, nullEliminated), s')) :
    List.Forall₂ (IsGroupRow tz (aggregates ++ [aggregate])) sets result := by
  induction hrows generalizing result nullEliminated s with
  | nil =>
      cases h
      exact .nil
  | cons hrow _ ih =>
      unfold storeResults at h
      obtain ⟨⟨⟨value, isEliminated⟩, s1⟩, heval, h⟩ := ok_of_bind h
      obtain ⟨⟨⟨rest, isEliminated'⟩, s2⟩, hrest, h⟩ := ok_of_bind h
      cases h
      exact .cons (hrow.set heval) (ih hrest)

theorem forall₂_storeAggregates {before aggregates : List (AggregateFunction Session)}
    {sets : List (List Rows.Row)} {finalRows result : List Rows.Row} {nullEliminated : Bool}
    {s s' : Session} (hrows : List.Forall₂ (IsGroupRow tz before) sets finalRows)
    (h : storeAggregates tz sets aggregates finalRows s = .ok ((result, nullEliminated), s')) :
    List.Forall₂ (IsGroupRow tz (before ++ aggregates)) sets result := by
  induction aggregates generalizing before finalRows nullEliminated s with
  | nil =>
      cases h
      rwa [List.append_nil]
  | cons aggregate aggregates ih =>
      unfold storeAggregates at h
      obtain ⟨⟨⟨rows, isEliminated⟩, s1⟩, hstore, h⟩ := ok_of_bind h
      obtain ⟨⟨⟨rest, isEliminated'⟩, s2⟩, hrest, h⟩ := ok_of_bind h
      cases h
      have hresult := ih (forall₂_storeResults hrows hstore) hrest
      rwa [List.append_assoc, List.singleton_append] at hresult

theorem forall₂_aggregate {addWarning : Session → Session} {sets : List (List Rows.Row)}
    {result : List Rows.Row} {s s' : Session}
    (h : o.aggregate tz addWarning sets s = .ok (result, s')) :
    List.Forall₂ (IsGroupRow tz o.aggregates) sets result := by
  unfold aggregate at h
  obtain ⟨⟨⟨rows, nullEliminated⟩, s1⟩, hstore, h⟩ := ok_of_bind h
  have hfinal : List.Forall₂ (IsGroupRow tz ([] : List (AggregateFunction Session))) sets
      (sets.map finalRow) := by
    rw [List.forall₂_map_right_iff]
    exact List.forall₂_same.mpr fun group _ => isGroupRow_finalRow group
  have hrows := forall₂_storeAggregates hfinal hstore
  cases nullEliminated <;> cases h <;> exact hrows

/-! ## When the groups are right -/

/-- There is a group for each class of equal rows, and a row with the results over its rows. -/
def Groups (tz : TimeZone) (n : Nat) (K : Set (List Value)) : Prop :=
  ∀ {Session : Type} (o : GroupOperation Session) (addWarning : Session → Session)
    (rows : List Rows.Row) (s : Session),
    o.groupExprs.length = n → (∀ row ∈ rows, o.Has K row) → ∃ groups,
      IsGrouping (o.same tz) rows groups ∧
      o.run tz addWarning rows s = o.aggregate tz addWarning groups s ∧
      ∀ result s', o.run tz addWarning rows s = .ok (result, s') →
        List.Forall₂ (IsGroupRow tz o.aggregates) groups result

def ascending (n : Nat) : List SortSpecification := List.replicate n ⟨true⟩

theorem order_eq (o : GroupOperation Session) : o.order = ascending o.groupExprs.length :=
  List.map_const'

theorem groups_of_negTransitive {n : Nat} (hpos : 0 < n) (hlength : ∀ key ∈ K, key.length = n)
    (hK : Comparable tz (ascending n) K) (htrans : NegTransitive (sortKeyLess tz (ascending n)) K) :
    Groups tz n K := by
  rintro Session o addWarning rows s rfl hrows
  rw [← order_eq] at hK htrans
  have hlength' : ∀ key ∈ K, key.length = o.order.length := fun key hkey => by
    rw [hlength key hkey, order, List.length_map]
  obtain ⟨groups, hgrouping, hrun⟩ :=
    exists_groups hlength' hK htrans hpos addWarning hrows s
  exact ⟨groups, hgrouping, hrun, fun result s' hresult =>
    forall₂_aggregate (hrun.symm.trans hresult)⟩

/-! ### Keys that are not in order -/

/-- Groups rows by all of their columns. -/
def plainOperation (n : Nat) : GroupOperation Unit :=
  ⟨(SetOperationOperation.plainColumns n).map fun column row => row.getColumn column, []⟩

theorem keys_plainRow (values : List Value) :
    (plainOperation values.length).keys (SetOperationOperation.plainRow values) = .ok values := by
  unfold keys plainOperation
  rw [List.mapM_map]
  exact SetOperationOperation.readRow_resultRow (o := ⟨.union, true, _⟩)
    SetOperationOperation.isResultName_plainColumns (SetOperationOperation.nodup_plainColumns _)
    (by simp)

theorem key_plainRow {n : Nat} {values : List Value} (hlength : values.length = n) :
    (plainOperation n).key (SetOperationOperation.plainRow values) = values := by
  subst hlength
  exact key_eq (keys_plainRow values)

/-- The columns of a group are those of its first row. -/
theorem key_finalRow {n : Nat} (row : Rows.Row) (group : List Rows.Row) :
    (plainOperation n).key (finalRow (row :: group)) = (plainOperation n).key row := by
  have hget : ∀ column, (finalRow (row :: group)).getColumn column = row.getColumn column :=
    fun _ => rfl
  simp only [key, keys, plainOperation, List.mapM_map, Function.comp_def, hget]

theorem aggregate_plainOperation (n : Nat) (addWarning : Unit → Unit)
    (sets : List (List Rows.Row)) :
    (plainOperation n).aggregate tz addWarning sets () = .ok (sets.map finalRow, ()) :=
  rfl

section Reverse

variable {n : Nat}

theorem has_plainRow (hlength : ∀ key ∈ K, key.length = n) {keys : List (List Value)}
    (hkeys : ∀ key ∈ keys, key ∈ K) :
    ∀ row ∈ keys.map SetOperationOperation.plainRow, (plainOperation n).Has K row := by
  intro row hrow
  obtain ⟨key, hkey, rfl⟩ := List.mem_map.mp hrow
  obtain rfl := hlength key (hkeys key hkey)
  exact ⟨key, hkeys key hkey, keys_plainRow key⟩

theorem map_key_plainRow (hlength : ∀ key ∈ K, key.length = n) {keys : List (List Value)}
    (hkeys : ∀ key ∈ keys, key ∈ K) :
    (keys.map SetOperationOperation.plainRow).map (plainOperation n).key = keys := by
  rw [List.map_map]
  refine (List.map_congr_left fun key hkey => ?_).trans (List.map_id keys)
  exact key_plainRow (hlength key (hkeys key hkey))

theorem comparable_of_groups (hpos : 0 < n) (hlength : ∀ key ∈ K, key.length = n)
    (h : Groups tz n K) : Comparable tz (ascending n) K := by
  intro a ha b hb
  have hkeys : ∀ key ∈ [b, a], key ∈ K := by simp [ha, hb]
  have hrows := has_plainRow hlength hkeys
  have hexprs : (plainOperation n).groupExprs.length = n := by
    simp [plainOperation, SetOperationOperation.plainColumns]
  obtain ⟨groups, -, hrun, -⟩ := h (plainOperation n) id _ () hexprs hrows
  rw [aggregate_plainOperation] at hrun
  unfold run at hrun
  rw [hexprs, if_pos hpos] at hrun
  obtain ⟨sorted, hexecute, -⟩ := ok_of_bind hrun
  have heval := evaluateKeys_compiledKeys hrows ()
  rw [map_key_plainRow hlength hkeys] at heval
  obtain ⟨cmp, hcmp⟩ := OrderOperation.exists_sortKeysCmp heval hexecute
  rw [order_eq, hexprs] at hcmp
  exact ⟨cmp, hcmp⟩

theorem length_plainOperation : (plainOperation n).groupExprs.length = n := by
  simp [plainOperation, SetOperationOperation.plainColumns]

/-- The first rows of the groups have different values. -/
theorem IsGrouping.pairwise_finalRow {rows : List Rows.Row} {groups : List (List Rows.Row)}
    (h : IsGrouping ((plainOperation n).same tz) rows groups) :
    (groups.map finalRow).Pairwise fun a b => (plainOperation n).same tz a b = false := by
  rw [List.pairwise_map]
  refine h.different.imp_of_mem fun {g g'} hg hg' hdifferent => ?_
  obtain ⟨a, g, rfl⟩ := List.exists_cons_of_ne_nil (h.nonempty g hg)
  obtain ⟨b, g', rfl⟩ := List.exists_cons_of_ne_nil (h.nonempty g' hg')
  rw [same, key_finalRow, key_finalRow]
  exact hdifferent a (by simp) b (by simp)

/-- The rows with these keys are grouped in their sorted order. -/
theorem pairwise_splitBy (hpos : 0 < n) (hlength : ∀ key ∈ K, key.length = n)
    (h : Groups tz n K) (keys sorted : List (List Value)) (hkeys : ∀ key ∈ keys, key ∈ K)
    (hsorted : (sortedPositions (sortKeyLess tz (ascending n)) keys).map (keys[·]?) =
      sorted.map some) :
    (((sorted.map SetOperationOperation.plainRow).splitBy ((plainOperation n).same tz)).map
      finalRow).Pairwise fun a b => (plainOperation n).same tz a b = false := by
  have hrows := has_plainRow hlength hkeys
  have horder : (plainOperation n).order = ascending n := by
    rw [order_eq, length_plainOperation]
  have hlength' : ∀ key ∈ K, key.length = (plainOperation n).order.length := fun key hkey => by
    rw [hlength key hkey, order, List.length_map, length_plainOperation]
  have hK := comparable_of_groups hpos hlength h
  obtain ⟨rows, hrun, hpositions⟩ := run_eq (o := plainOperation n) hlength'
    (horder ▸ hK) (by rwa [length_plainOperation]) id hrows ()
  obtain ⟨groups, hgrouping, hgroups, -⟩ := h (plainOperation n) id _ () length_plainOperation hrows
  have hrowsEq : rows = sorted.map SetOperationOperation.plainRow := by
    have hmap := map_getElem?_eq hpositions
    rw [map_key_plainRow hlength hkeys, horder] at hmap
    refine List.map_injective_iff.mpr (Option.some_injective _) ?_
    have hplain : ∀ p, (keys.map SetOperationOperation.plainRow)[p]? =
        (keys[p]?).map SetOperationOperation.plainRow := fun p => List.getElem?_map
    have hsorted' := congrArg (List.map (Option.map SetOperationOperation.plainRow)) hsorted
    rw [← hmap]
    simpa [hplain, Function.comp_def] using hsorted'
  rw [hgroups, aggregate_plainOperation, aggregate_plainOperation, hrowsEq] at hrun
  simp only [Except.ok.injEq, Prod.mk.injEq, and_true] at hrun
  rw [← hrun]
  exact IsGrouping.pairwise_finalRow hgrouping

theorem negTransitive_of_groups (hpos : 0 < n) (hlength : ∀ key ∈ K, key.length = n)
    (h : Groups tz n K) : NegTransitive (sortKeyLess tz (ascending n)) K := by
  have hK := comparable_of_groups hpos hlength h
  have hasymm := asymmetric_sortKeyLess hK
  have hlength' : ∀ key ∈ K, key.length = (ascending n).length := fun key hkey => by
    rw [hlength key hkey, ascending, List.length_replicate]
  have hsame : ∀ a ∈ K, ∀ b ∈ K, (plainOperation n).same tz (SetOperationOperation.plainRow a)
      (SetOperationOperation.plainRow b) = isSame (sortKeyLess tz (ascending n)) a b := by
    intro a ha b hb
    rw [same, key_plainRow (hlength a ha), key_plainRow (hlength b hb), Bool.eq_iff_iff,
      isSame_iff, rowEqual_iff hlength' hK ha hb]
  have hsameFinal : ∀ a ∈ K, ∀ b ∈ K, ∀ g g' : List Rows.Row, (plainOperation n).same tz
      (finalRow (SetOperationOperation.plainRow a :: g))
      (finalRow (SetOperationOperation.plainRow b :: g')) =
        isSame (sortKeyLess tz (ascending n)) a b := by
    intro a ha b hb g g'
    rw [← hsame a ha b hb, same, key_finalRow, key_finalRow, same]
  by_contra hnot
  obtain ⟨a, ha, b, hb, c, hc, h' | h' | h'⟩ := exists_of_not_negTransitive hnot
  · obtain ⟨hab, hbc, hca⟩ := h'
    have hkeys : ∀ key ∈ [a, b, c], key ∈ K := by simp [ha, hb, hc]
    obtain ⟨groups, hgrouping, -⟩ :=
      h (plainOperation n) id _ () length_plainOperation (has_plainRow hlength hkeys)
    have hac := hgrouping.trans (a := SetOperationOperation.plainRow a)
      (b := SetOperationOperation.plainRow b) (c := SetOperationOperation.plainRow c) ?_
      (by simp) (by simp) (by simp) (by rw [hsame a ha b hb, isSame_iff]; exact hab)
      (by rw [hsame b hb c hc, isSame_iff]; exact hbc)
    · rw [hsame a ha c hc, isSame_iff, hca] at hac
      cases hac.2
    · intro x hx y hy
      obtain ⟨x, hxmem, rfl⟩ := List.mem_map.mp hx
      obtain ⟨y, hymem, rfl⟩ := List.mem_map.mp hy
      rw [hsame x (hkeys x hxmem) y (hkeys y hymem), hsame y (hkeys y hymem) x (hkeys x hxmem),
        isSame, isSame, Bool.and_comm]
  · obtain ⟨hac, hba, hcb⟩ := h'
    have hpairwise := pairwise_splitBy hpos hlength h [a, b, c] [c, b, a]
      (by simp [ha, hb, hc]) (by rw [sortedPositions_reversed hba hcb]; rfl)
    simp [List.splitBy, List.splitBy.loop, hsame, hsameFinal, ha, hb, hc, isSame, hba, hcb, hac.1,
      hac.2] at hpairwise
  · obtain ⟨hab, hbc, hca⟩ := h'
    have hpairwise := pairwise_splitBy hpos hlength h [c, a, b, b, a] [a, b, b, c, a]
      (by simp [ha, hb, hc]) (by
        rw [sortedPositions_cycle hab hbc (hasymm c hc a ha hca) (hasymm.irrefl hb)]
        rfl)
    simp [List.splitBy, List.splitBy.loop, hsame, hsameFinal, ha, hb, hc, isSame, hab, hbc, hca,
      hasymm.irrefl ha, hasymm.irrefl hb] at hpairwise

end Reverse

/-- The groups are right if and only if the comparison of the grouping columns is transitive. -/
theorem groups_iff {n : Nat} (hpos : 0 < n) (hlength : ∀ key ∈ K, key.length = n) :
    Groups tz n K ↔ Comparable tz (ascending n) K ∧
      NegTransitive (sortKeyLess tz (ascending n)) K :=
  ⟨fun h => ⟨comparable_of_groups hpos hlength h, negTransitive_of_groups hpos hlength h⟩,
    fun h => groups_of_negTransitive hpos hlength h.1 h.2⟩

/-- `GROUP BY a, b` -/
theorem groups_iff_types : Groups noTimeZone 2
    (OrderedKeys [{ typ := .varchar, size := 10 }, { typ := .doublePrecision }]) :=
  (groups_iff two_pos fun _ hkey => by
    simpa using OrderOperation.length_of_mem_orderedKeys hkey).mpr
    ⟨comparable_orderedKeys rfl, negTransitive_orderedKeys rfl⟩

/-- `1`, NaN and `2` -/
def nanRows : List Rows.Row :=
  [OrderOperation.doubleValue (.ofInt 1), OrderOperation.doubleValue (.nan _),
    OrderOperation.doubleValue (.ofInt 2)].map fun v => SetOperationOperation.plainRow [v]

/-- The rows are one group, but `1` is not equal to `2`. -/
theorem not_groups_nan :
    ((plainOperation 1).run noTimeZone id nanRows ()).map (·.1.length) = .ok 1 ∧
      ¬∃ groups, IsGrouping ((plainOperation 1).same noTimeZone) nanRows groups ∧
        groups.length = 1 := by
  refine ⟨by decide +kernel, fun ⟨groups, hgrouping, hlength⟩ => ?_⟩
  obtain ⟨group, rfl⟩ := List.length_eq_one_iff.mp hlength
  have hmem : ∀ row ∈ nanRows, row ∈ group := fun row hrow => by
    simpa using hgrouping.perm.mem_iff.mpr hrow
  have hsame := hgrouping.all_same group (by simp) _ (hmem nanRows[0] (by simp [nanRows])) _
    (hmem nanRows[2] (by simp [nanRows]))
  revert hsame
  decide +kernel

end GroupOperation

end Vsql
