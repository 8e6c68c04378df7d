import Vsql.Queries.CombinedValue
import Vsql.Queries.OrderOperation
import Vsql.Rows.Row

/-!
# UNION and EXCEPT

The rows of both sides are converted to the types of the result, and duplicates are found by
comparing each row with the ones before it.  Every row occurs as often as SQL says if and only
if equality of the rows is transitive and the columns of the result can be told apart.
-/

namespace Vsql

open Foundation
open Rows (Column)

variable {tz : TimeZone}

/-! ## Rows of a query -/

namespace Rows

def Row.get (r : Row) (name : Text) : Except Failure Value :=
  match r.data.get? name with
  | some v => .ok v
  | none =>
      match r.data.keys.find? fun n => n.map Char.toUpper = name.map Char.toUpper with
      | some n => .error (.error .sXX000 s!"no such column {name.str}, did you mean {n.str}?")
      | none => .error (.error .sXX000 s!"no such column {name.str}")

def Row.getColumn (r : Row) (column : Column) : Except Failure Value :=
  if column.name.customId ≠ [] ∧ column.name.subEntityName ≠ [] then r.get column.name.customId
  else r.get column.name.subEntityName

def newRow (data : OrderedMap Text Value) : Row := ⟨[], 0, data⟩

end Rows

/-! ## Set operations -/

inductive SetOperator where
  | union
  | except

structure SetOperationOperation where
  op : SetOperator
  all : Bool
  columns : List Column

/-- The index of the first duplicate after the first `i` rows. -/
def findDuplicateRowFrom (tz : TimeZone) (values : List Value) (i : Int) :
    List (List Value) → Except Failure Int
  | [] => .ok (-1)
  | row :: rows => do
      if ← isDuplicateRow tz row values then .ok i
      else findDuplicateRowFrom tz values (i + 1) rows

def findDuplicateRow (tz : TimeZone) (rows : List (List Value)) (values : List Value) :
    Except Failure Int :=
  findDuplicateRowFrom tz values 0 rows

namespace SetOperationOperation

/-- Whether the values duplicate a row of the right side that isn't removed, and the rows that
are removed after that. -/
def removeDuplicate (tz : TimeZone) (all : Bool) (values : List Value) :
    List (List Value) → List Bool → Except Failure (Bool × List Bool)
  | other :: right, r :: removed => do
      if !r then
        if ← isDuplicateRow tz values other then return (true, all :: removed)
      let (isRemoved, removed) ← removeDuplicate tz all values right removed
      pure (isRemoved, r :: removed)
  | _, removed => .ok (false, removed)

def keepUnion (o : SetOperationOperation) (tz : TimeZone) (kept : List (List Value))
    (values : List Value) : Except Failure (List (List Value)) := do
  if o.all then pure (kept ++ [values])
  else
    let i ← findDuplicateRow tz kept values
    pure (if i < 0 then kept ++ [values] else kept)

def keepExcept (o : SetOperationOperation) (tz : TimeZone) (right : List (List Value))
    (s : List (List Value) × List Bool) (values : List Value) :
    Except Failure (List (List Value) × List Bool) := do
  let (kept, removed) := s
  if !o.all then
    let i ← findDuplicateRow tz kept values
    if i ≥ 0 then return (kept, removed)
  let (isRemoved, removed) ← removeDuplicate tz o.all values right removed
  pure (if isRemoved then kept else kept ++ [values], removed)

def combine (o : SetOperationOperation) (tz : TimeZone) (left right : List (List Value)) :
    Except Failure (List (List Value)) :=
  match o.op with
  | .union => do
      let kept ← left.foldlM (o.keepUnion tz) []
      right.foldlM (o.keepUnion tz) kept
  | .except => do
      let (kept, _) ← left.foldlM (o.keepExcept tz right) ([], right.map fun _ => false)
      pure kept

def resultRow (o : SetOperationOperation) (values : List Value) : Rows.Row :=
  Rows.newRow (OrderedMap.setAll ((o.columns.map (·.name.id)).zip values) .empty)

/-- The values of each row, converted to the types of the result. -/
def values (o : SetOperationOperation) (tz : TimeZone) (rows : List Rows.Row)
    (columns : List Column) : Except Failure (List (List Value)) :=
  rows.mapM fun row => (columns.zip o.columns).mapM fun c => do
    let v ← row.getColumn c.1
    convertToCombinedType tz v c.2.typ

/-- The rows and columns are those of the two plans. -/
def execute (o : SetOperationOperation) (tz : TimeZone) (leftRows : List Rows.Row)
    (leftColumns : List Column) (rightRows : List Rows.Row) (rightColumns : List Column) :
    Except Failure (List Rows.Row) := do
  let left ← o.values tz leftRows leftColumns
  let right ← o.values tz rightRows rightColumns
  let kept ← o.combine tz left right
  pure (kept.map o.resultRow)

/-! ## The rows that are kept -/

variable {o : SetOperationOperation} {K : Set (List Value)}

theorem isDuplicateRow_eq (hK : RowsComparable tz K) {a b : List Value} (ha : a ∈ K)
    (hb : b ∈ K) : isDuplicateRow tz a b = .ok (rowEqual tz a b) := by
  obtain ⟨equal, hequal⟩ := hK a ha b hb
  rw [rowEqual, hequal]

theorem exists_findDuplicateRow (hK : RowsComparable tz K) {rows : List (List Value)}
    {values : List Value} (hrows : ∀ row ∈ rows, row ∈ K) (hvalues : values ∈ K) :
    ∃ k, findDuplicateRow tz rows values = .ok k ∧
      (k < 0 ↔ rows.any (rowEqual tz · values) = false) := by
  have hfrom : ∀ i : Int, 0 ≤ i → ∃ k, findDuplicateRowFrom tz values i rows = .ok k ∧
      (k < 0 ↔ rows.any (rowEqual tz · values) = false) := by
    induction rows with
    | nil => exact fun i _ => ⟨-1, rfl, by simp⟩
    | cons row rows ih =>
        intro i hi
        rw [findDuplicateRowFrom, isDuplicateRow_eq hK (hrows row (by simp)) hvalues]
        obtain ⟨k, hk, hany⟩ := ih (fun r hr => hrows r (List.mem_cons_of_mem row hr)) (i + 1)
          (by omega)
        rw [List.any_cons]
        cases hequal : rowEqual tz row values with
        | true => exact ⟨i, rfl, by simp [hi]⟩
        | false => exact ⟨k, hk, by rw [Bool.false_or, hany]⟩
  exact hfrom 0 le_rfl

theorem foldlM_keepUnion_all (hall : o.all = true) (kept rows : List (List Value)) :
    rows.foldlM (o.keepUnion tz) kept = .ok (kept ++ rows) := by
  induction rows generalizing kept with
  | nil => simp [pure, Except.pure]
  | cons values rows ih =>
      rw [List.foldlM_cons, keepUnion, if_pos hall]
      change rows.foldlM (o.keepUnion tz) (kept ++ [values]) = _
      rw [ih, List.append_assoc, List.singleton_append]

theorem foldlM_keepUnion (hall : o.all = false) (hK : RowsComparable tz K)
    {kept rows : List (List Value)} (hkept : ∀ row ∈ kept, row ∈ K)
    (hrows : ∀ row ∈ rows, row ∈ K) :
    rows.foldlM (o.keepUnion tz) kept = .ok (keepFirst (rowEqual tz) kept rows) := by
  induction rows generalizing kept with
  | nil => rfl
  | cons values rows ih =>
      have hvalues := hrows values (by simp)
      obtain ⟨k, hk, hany⟩ := exists_findDuplicateRow hK hkept hvalues
      rw [List.foldlM_cons, keepUnion, hall, if_neg (by decide), hk, keepFirst]
      change rows.foldlM (o.keepUnion tz) (if k < 0 then kept ++ [values] else kept) = _
      have hstep : (if k < 0 then kept ++ [values] else kept) =
          if kept.any (rowEqual tz · values) then kept else kept ++ [values] := by
        cases h : kept.any (rowEqual tz · values) <;> simp [hany, h]
      rw [hstep]
      refine ih (fun row hrow => ?_) fun row hrow => hrows row (List.mem_cons_of_mem values hrow)
      split_ifs at hrow
      · exact hkept row hrow
      · obtain hrow | hrow := List.mem_append.mp hrow
        · exact hkept row hrow
        · rwa [List.mem_singleton.mp hrow]

/-! ## The rows of the right side that are not removed -/

def remaining : List (List Value) → List Bool → List (List Value)
  | other :: right, r :: removed =>
      if r then remaining right removed else other :: remaining right removed
  | _, _ => []

theorem remaining_map_false (right : List (List Value)) :
    remaining right (right.map fun _ => false) = right := by
  induction right with
  | nil => rfl
  | cons other right ih => rw [List.map_cons, remaining, if_neg (by decide), ih]

theorem exists_removeDuplicate (hK : RowsComparable tz K) (all : Bool) {values : List Value}
    (hvalues : values ∈ K) {right : List (List Value)} (hright : ∀ row ∈ right, row ∈ K)
    (removed : List Bool) :
    ∃ removed', removeDuplicate tz all values right removed =
        .ok ((remaining right removed).any (rowEqual tz values), removed') ∧
      remaining right removed' = if all then (remaining right removed).eraseP (rowEqual tz values)
        else remaining right removed := by
  induction right generalizing removed with
  | nil => exact ⟨removed, by simp [removeDuplicate, remaining], by simp [remaining]⟩
  | cons other right ih =>
      cases removed with
      | nil => exact ⟨[], by simp [removeDuplicate, remaining], by simp [remaining]⟩
      | cons r removed =>
          obtain ⟨removed', hrest, hremaining⟩ :=
            ih (fun row hrow => hright row (List.mem_cons_of_mem other hrow)) removed
          rw [removeDuplicate]
          cases r with
          | true =>
              refine ⟨true :: removed', ?_, ?_⟩
              · change (removeDuplicate tz all values right removed >>= _) = _
                rw [hrest]
                rfl
              · exact hremaining
          | false =>
              have hdup := isDuplicateRow_eq hK hvalues (hright other (by simp))
              cases hequal : rowEqual tz values other with
              | true =>
                  refine ⟨all :: removed, ?_, ?_⟩
                  · simp only [Bool.not_false, if_true, hdup, hequal]
                    simp [remaining, hequal, pure, Except.pure, bind, Except.bind]
                  · cases all <;> simp [remaining, hequal]
              | false =>
                  refine ⟨false :: removed', ?_, ?_⟩
                  · simp only [Bool.not_false, if_true, hdup, hequal]
                    change (removeDuplicate tz all values right removed >>= _) = _
                    rw [hrest]
                    simp [remaining, hequal, pure, Except.pure, bind, Except.bind]
                  · cases all <;> simpa [remaining, hequal] using hremaining

/-- The rows of the left side without as many duplicates of the right side. -/
theorem foldlM_keepExcept_all (hall : o.all = true) (hK : RowsComparable tz K)
    {left right : List (List Value)} (hleft : ∀ row ∈ left, row ∈ K)
    (hright : ∀ row ∈ right, row ∈ K) (kept : List (List Value)) (removed : List Bool) :
    ∃ removed', left.foldlM (o.keepExcept tz right) (kept, removed) =
      .ok (kept ++ subtract (rowEqual tz) left (remaining right removed), removed') := by
  induction left generalizing kept removed with
  | nil => exact ⟨removed, by simp [subtract, pure, Except.pure]⟩
  | cons values left ih =>
      obtain ⟨removed', hremove, hremaining⟩ :=
        exists_removeDuplicate hK true (hleft values (by simp)) hright removed
      rw [if_pos rfl] at hremaining
      have hrest := ih fun row hrow => hleft row (List.mem_cons_of_mem values hrow)
      rw [List.foldlM_cons, keepExcept, hall, if_neg (by decide), hremove, subtract]
      cases hany : (remaining right removed).any (rowEqual tz values) with
      | true =>
          rw [if_pos rfl, ← hremaining]
          exact hrest kept removed'
      | false =>
          rw [List.eraseP_of_forall_not (by simpa using hany)] at hremaining
          obtain ⟨removed'', hleft'⟩ := hrest (kept ++ [values]) removed'
          rw [hremaining, List.append_assoc, List.singleton_append] at hleft'
          exact ⟨removed'', hleft'⟩

theorem keepExcept_eq (hall : o.all = false) {kept right : List (List Value)}
    {removed removed' : List Bool} {values : List Value} {k : Int} {isRemoved : Bool}
    (hk : findDuplicateRow tz kept values = .ok k)
    (hremove : removeDuplicate tz false values right removed = .ok (isRemoved, removed')) :
    o.keepExcept tz right (kept, removed) values =
      if k ≥ 0 then .ok (kept, removed)
      else .ok (if isRemoved then kept else kept ++ [values], removed') := by
  rw [keepExcept, hall, if_pos (by decide), hk]
  change (if k ≥ 0 then _ else removeDuplicate tz false values right removed >>= _) = _
  rw [hremove]
  rfl

theorem foldlM_keepExcept (hall : o.all = false) (hK : RowsComparable tz K)
    {left right : List (List Value)} (hleft : ∀ row ∈ left, row ∈ K)
    (hright : ∀ row ∈ right, row ∈ K) {kept : List (List Value)} (hkept : ∀ row ∈ kept, row ∈ K)
    (removed : List Bool) :
    ∃ removed', left.foldlM (o.keepExcept tz right) (kept, removed) =
      .ok (keepFirst (rowEqual tz) kept
        (left.filter fun values => !(remaining right removed).any (rowEqual tz values)),
        removed') := by
  induction left generalizing kept removed with
  | nil => exact ⟨removed, by simp [keepFirst, pure, Except.pure]⟩
  | cons values left ih =>
      have hvalues := hleft values (by simp)
      obtain ⟨k, hk, hany⟩ := exists_findDuplicateRow hK hkept hvalues
      obtain ⟨removed', hremove, hremaining⟩ :=
        exists_removeDuplicate hK false hvalues hright removed
      rw [if_neg (by decide)] at hremaining
      have hrest := fun kept => @ih (fun row hrow => hleft row (List.mem_cons_of_mem values hrow))
        kept
      rw [List.foldlM_cons, keepExcept_eq hall hk hremove, keepFirst_filter_cons]
      cases hdup : kept.any (rowEqual tz · values) with
      | true =>
          have hge : k ≥ 0 := by
            rw [hdup] at hany
            simpa using hany
          rw [if_pos hge]
          exact hrest kept hkept removed
      | false =>
          rw [if_neg (not_le.mpr (hany.mpr hdup))]
          rw [← hremaining]
          cases hright' : (remaining right removed').any (rowEqual tz values) with
          | true => exact hrest kept hkept removed'
          | false =>
              refine hrest (kept ++ [values]) ?_ removed'
              simpa [or_imp, forall_and, hvalues] using hkept

/-! ## Multiplicities -/

/-- How often a row is in the result that is `m` times on the left and `n` times on the right. -/
def multiplicity (o : SetOperationOperation) (m n : Nat) : Nat :=
  match o.op, o.all with
  | .union, true => m + n
  | .union, false => if 0 < m + n then 1 else 0
  | .except, true => m - n
  | .except, false => if 0 < m ∧ n = 0 then 1 else 0

structure HasMultiplicities (tz : TimeZone) (o : SetOperationOperation)
    (left right result : List (List Value)) : Prop where
  occurrences : ∀ row ∈ left ++ right, occurrences (rowEqual tz) row result =
    o.multiplicity (occurrences (rowEqual tz) row left) (occurrences (rowEqual tz) row right)
  mem : ∀ row ∈ result, row ∈ left ++ right

theorem exists_combine {n : Nat} (hlength : ∀ row ∈ K, row.length = n) (hK : RowsComparable tz K)
    (htrans : EqualityTransitive tz K) {left right : List (List Value)}
    (hleft : ∀ row ∈ left, row ∈ K) (hright : ∀ row ∈ right, row ∈ K) :
    ∃ result, o.combine tz left right = .ok result ∧
      HasMultiplicities tz o left right result := by
  have heqv := isEquivalence_rowEqual hlength hK htrans
  have hrows : ∀ row ∈ left ++ right, row ∈ K := by
    intro row hrow
    obtain hrow | hrow := List.mem_append.mp hrow
    · exact hleft row hrow
    · exact hright row hrow
  have hnil : ∀ row ∈ ([] : List (List Value)), row ∈ K := by simp
  unfold combine
  cases hop : o.op <;> cases hall : o.all
  · refine ⟨keepFirst (rowEqual tz) [] (left ++ right), ?_, fun row hrow => ?_, fun row hrow => ?_⟩
    · have hkept : ∀ row ∈ keepFirst (rowEqual tz) [] left, row ∈ K := fun row hrow =>
        hleft row (by simpa using mem_of_mem_keepFirst hrow)
      change (left.foldlM (o.keepUnion tz) [] >>= _) = _
      rw [foldlM_keepUnion hall hK hnil hleft, keepFirst_append,
        ← foldlM_keepUnion hall hK hkept hright]
      rfl
    · rw [heqv.occurrences_keepFirst (hrows row hrow) hnil hrows (by simp [Foundation.occurrences]),
        List.nil_append, occurrences_append]
      simp [multiplicity, hop, hall]
    · simpa using mem_of_mem_keepFirst hrow
  · refine ⟨left ++ right, ?_, fun row _ => ?_, fun _ => id⟩
    · change (left.foldlM (o.keepUnion tz) [] >>= _) = _
      rw [foldlM_keepUnion_all hall, List.nil_append]
      exact foldlM_keepUnion_all hall left right
    · rw [occurrences_append]
      simp [multiplicity, hop, hall]
  · obtain ⟨removed', hfold⟩ := @foldlM_keepExcept tz o K hall hK left right hleft hright [] hnil
      (right.map fun _ => false)
    rw [remaining_map_false] at hfold
    refine ⟨keepFirst (rowEqual tz) [] (left.filter fun values => !right.any (rowEqual tz values)),
      ?_, fun row hrow => ?_, fun row hrow => ?_⟩
    · change (left.foldlM (o.keepExcept tz right) ([], right.map fun _ => false) >>= _) = _
      rw [hfold]
      rfl
    · rw [heqv.occurrences_keepFirst (hrows row hrow) hnil
        (fun b hb => hleft b (List.mem_of_mem_filter hb)) (by simp [Foundation.occurrences]),
        List.nil_append, heqv.occurrences_filter (hrows row hrow) hleft hright]
      simp only [multiplicity, hop, hall]
      split_ifs <;> simp_all
    · have hmem := mem_of_mem_keepFirst hrow
      rw [List.nil_append] at hmem
      exact List.mem_append_left _ (List.mem_of_mem_filter hmem)
  · obtain ⟨removed', hfold⟩ := @foldlM_keepExcept_all tz o K hall hK left right hleft hright []
      (right.map fun _ => false)
    rw [remaining_map_false, List.nil_append] at hfold
    refine ⟨subtract (rowEqual tz) left right, ?_, fun row hrow => ?_, fun row hrow =>
      List.mem_append_left _ (mem_of_mem_subtract hrow)⟩
    · change (left.foldlM (o.keepExcept tz right) ([], right.map fun _ => false) >>= _) = _
      rw [hfold]
      rfl
    · rw [heqv.occurrences_subtract (hrows row hrow) hleft hright]
      simp only [multiplicity, hop, hall]

/-! ## Reading the result -/

/-- The values of a row of the result. -/
def readRow (o : SetOperationOperation) (row : Rows.Row) : Except Failure (List Value) :=
  o.columns.mapM row.getColumn

/-- The columns of the result can be told apart. -/
def ReadsBack (o : SetOperationOperation) (K : Set (List Value)) : Prop :=
  ∀ values ∈ K, o.readRow (o.resultRow values) = .ok values

/-- The name of a column of a result, with the key of a duplicate name. -/
structure IsResultName (name : Identifier) : Prop where
  catalogName : name.catalogName = []
  schemaName : name.schemaName = []
  entityName : name.entityName = []
  subEntityName : name.subEntityName ≠ []

theorem IsResultName.getColumn {column : Column} (h : IsResultName column.name)
    (row : Rows.Row) : row.getColumn column = row.get column.name.id := by
  have hparts : column.name.parts = [column.name.subEntityName] := by
    simp [Identifier.parts, h.catalogName, h.schemaName, h.entityName, h.subEntityName]
  unfold Rows.Row.getColumn Identifier.id
  split_ifs with hboth hcustom hcustom
  · rfl
  · exact absurd hboth.1 hcustom
  · exact absurd ⟨hcustom, h.subEntityName⟩ hboth
  · rw [hparts]
    simp [List.intercalate]

/-- Different keys keep the values apart. -/
theorem readRow_resultRow (hnames : ∀ column ∈ o.columns, IsResultName column.name)
    (hnodup : (o.columns.map (·.name.id)).Nodup) {values : List Value}
    (hlength : values.length = o.columns.length) :
    o.readRow (o.resultRow values) = .ok values := by
  refine mapM_of_forall₂ (List.forall₂_iff_get.mpr ⟨hlength.symm, fun i hi hi' => ?_⟩)
  have hcolumn : o.columns[i] ∈ o.columns := List.getElem_mem hi
  have hkeys : (((o.columns.map (·.name.id)).zip values).map Prod.fst).Nodup := by
    rwa [List.map_fst_zip (by simp [hlength])]
  have hmem : (o.columns[i].name.id, values[i]) ∈ (o.columns.map (·.name.id)).zip values := by
    refine List.mem_iff_getElem.mpr ⟨i, by simp [hi, hlength], ?_⟩
    simp
  have hget : (o.resultRow values).data.get? o.columns[i].name.id = some values[i] :=
    OrderedMap.get?_setAll_of_mem hkeys hmem
  simp only [List.get_eq_getElem]
  rw [(hnames _ hcolumn).getColumn, Rows.Row.get, hget]

/-! ## Every row occurs as often as it should -/

/-- Every result of two queries whose rows are converted to rows of `K`. -/
def Combines (tz : TimeZone) (columns : List Column) (K : Set (List Value)) : Prop :=
  ∀ (op : SetOperator) (all : Bool) (leftRows rightRows : List Rows.Row)
    (leftColumns rightColumns : List Column) (left right : List (List Value)),
    let o : SetOperationOperation := ⟨op, all, columns⟩
    o.values tz leftRows leftColumns = .ok left →
    o.values tz rightRows rightColumns = .ok right → (∀ row ∈ left ++ right, row ∈ K) →
    ∃ rows result, o.execute tz leftRows leftColumns rightRows rightColumns = .ok rows ∧
      rows.mapM o.readRow = .ok result ∧ HasMultiplicities tz o left right result

/-- Rows of values that have the types of the columns. -/
def HasTypes (tz : TimeZone) (columns : List Column) (K : Set (List Value)) : Prop :=
  ∀ values ∈ K, List.Forall₂ (fun column v => convertToCombinedType tz v column.typ = .ok v)
    columns values

theorem execute_eq {leftRows rightRows : List Rows.Row} {leftColumns rightColumns : List Column}
    {left right : List (List Value)} (hleft : o.values tz leftRows leftColumns = .ok left)
    (hright : o.values tz rightRows rightColumns = .ok right) :
    o.execute tz leftRows leftColumns rightRows rightColumns =
      (o.combine tz left right).map fun kept => kept.map o.resultRow := by
  rw [execute, hleft, hright]
  change (o.combine tz left right >>= _) = _
  cases o.combine tz left right <;> rfl

theorem combines_of_transitive {columns : List Column} (htypes : HasTypes tz columns K)
    (hreads : ∀ op all, ReadsBack ⟨op, all, columns⟩ K) (hK : RowsComparable tz K)
    (htrans : EqualityTransitive tz K) : Combines tz columns K := by
  intro op all leftRows rightRows leftColumns rightColumns left right o hleft hright hrows
  have hlength : ∀ row ∈ K, row.length = columns.length := fun row hrow =>
    (htypes row hrow).length_eq.symm
  obtain ⟨result, hcombine, hresult⟩ := exists_combine (o := o) hlength hK htrans
    (fun row hrow => hrows row (List.mem_append_left _ hrow))
    fun row hrow => hrows row (List.mem_append_right _ hrow)
  refine ⟨result.map o.resultRow, result, ?_, ?_, hresult⟩
  · rw [execute_eq hleft hright, hcombine]
    rfl
  · rw [List.mapM_map]
    refine mapM_of_forall₂ (List.forall₂_same.mpr fun row hrow => ?_)
    exact hreads op all row (hrows row (hresult.mem row hrow))

/-! ## Rows that are not equivalent -/

/-- Columns with the names `A`, `AA` and so on. -/
def plainColumns (n : Nat) : List Column :=
  (List.range n).map fun i =>
    { name := { subEntityName := List.replicate (i + 1) 'A' }, typ := { typ := .integer },
      notNull := false }

def plainRow (values : List Value) : Rows.Row :=
  resultRow ⟨.union, true, plainColumns values.length⟩ values

theorem isResultName_plainColumns {n : Nat} :
    ∀ column ∈ plainColumns n, IsResultName column.name := by
  intro column hcolumn
  obtain ⟨i, -, rfl⟩ := List.mem_map.mp hcolumn
  exact ⟨rfl, rfl, rfl, by simp⟩

theorem nodup_plainColumns (n : Nat) : ((plainColumns n).map (·.name.id)).Nodup := by
  rw [plainColumns, List.map_map]
  refine List.nodup_range.map_on fun i _ j _ hij => ?_
  have hlength := congrArg List.length hij
  simpa [Identifier.id, Identifier.parts, List.intercalate] using hlength

theorem values_plainRow {columns : List Column} (htypes : HasTypes tz columns K)
    {rows : List (List Value)} (hrows : ∀ row ∈ rows, row ∈ K) :
    values ⟨o.op, o.all, columns⟩ tz (rows.map plainRow) (plainColumns columns.length) =
      .ok rows := by
  unfold values
  rw [List.mapM_map]
  refine mapM_of_forall₂ (List.forall₂_same.mpr fun row hrow => ?_)
  have hconvert := htypes row (hrows row hrow)
  have hlength := hconvert.length_eq
  have hread := @readRow_resultRow ⟨.union, true, plainColumns row.length⟩
    isResultName_plainColumns (nodup_plainColumns _) row (by simp [plainColumns])
  have hget := forall₂_of_mapM hread
  rw [List.forall₂_iff_get] at hconvert hget
  rw [hlength]
  refine mapM_of_forall₂ (List.forall₂_iff_get.mpr ⟨by simp [plainColumns, hlength], ?_⟩)
  intro i hi hi'
  have hcolumn := hget.2 i (by simpa [plainColumns] using hi') hi'
  have htyp := hconvert.2 i (by omega) hi'
  simp only [List.get_eq_getElem, List.getElem_zip] at hcolumn htyp ⊢
  rw [show plainRow row = resultRow ⟨.union, true, plainColumns row.length⟩ row from rfl, hcolumn]
  exact htyp

theorem exists_result {columns : List Column} (htypes : HasTypes tz columns K)
    (h : Combines tz columns K) (op : SetOperator) (all : Bool) {left right : List (List Value)}
    (hleft : ∀ row ∈ left, row ∈ K) (hright : ∀ row ∈ right, row ∈ K) :
    ∃ kept result, combine ⟨op, all, columns⟩ tz left right = .ok kept ∧
      kept.mapM (fun row => readRow ⟨op, all, columns⟩ (resultRow ⟨op, all, columns⟩ row)) =
        .ok result ∧ HasMultiplicities tz ⟨op, all, columns⟩ left right result := by
  have hvalues := @values_plainRow tz ⟨op, all, columns⟩ K columns htypes left hleft
  have hvalues' := @values_plainRow tz ⟨op, all, columns⟩ K columns htypes right hright
  obtain ⟨rows, result, hexecute, hread, hresult⟩ := h op all _ _ _ _ left right hvalues hvalues'
    fun row hrow => (List.mem_append.mp hrow).elim (hleft row) (hright row)
  rw [execute_eq hvalues hvalues'] at hexecute
  cases hcombine : combine ⟨op, all, columns⟩ tz left right with
  | error e =>
      rw [hcombine] at hexecute
      cases hexecute
  | ok kept =>
      rw [hcombine] at hexecute
      rw [← Except.ok.inj hexecute, List.mapM_map] at hread
      exact ⟨kept, result, rfl, hread, hresult⟩

theorem readsBack_of_combines {columns : List Column} (htypes : HasTypes tz columns K)
    (h : Combines tz columns K) (op : SetOperator) (all : Bool) :
    ReadsBack ⟨op, all, columns⟩ K := by
  intro row hrow
  obtain ⟨kept, result, hcombine, hread, hresult⟩ := @exists_result tz K columns htypes h .union
    true [row] [] (by simpa using hrow) (by simp)
  have hkept : kept = [row] := by
    cases hcombine
    rfl
  rw [hkept] at hread
  obtain _ | ⟨hrow', hnil⟩ := forall₂_of_mapM hread
  cases hnil
  have hmem := hresult.mem _ List.mem_cons_self
  simp only [List.append_nil, List.mem_singleton] at hmem
  rw [hmem] at hrow'
  exact hrow'

theorem rowsComparable_of_combines {columns : List Column} (htypes : HasTypes tz columns K)
    (h : Combines tz columns K) : RowsComparable tz K := by
  intro a ha b hb
  obtain ⟨kept, -, hcombine, -⟩ := @exists_result tz K columns htypes h .union false [a] [b]
    (by simpa using ha) (by simpa using hb)
  cases hdup : isDuplicateRow tz a b with
  | ok equal => exact ⟨equal, rfl⟩
  | error e =>
      have herror : combine ⟨.union, false, columns⟩ tz [a] [b] = .error e := by
        simp [combine, keepUnion, findDuplicateRow, findDuplicateRowFrom, hdup, bind,
          Except.bind, pure, Except.pure]
      rw [herror] at hcombine
      cases hcombine

theorem equalityTransitive_of_combines {columns : List Column} (htypes : HasTypes tz columns K)
    (h : Combines tz columns K) : EqualityTransitive tz K := by
  intro a ha b hb c hc hab hbc
  by_contra hac
  have hK := rowsComparable_of_combines htypes h
  have hleft : ∀ row ∈ [a, c], row ∈ K := by simp [ha, hc]
  have hright : ∀ row ∈ [b], row ∈ K := by simp [hb]
  obtain ⟨kept, result, hcombine, hread, hresult⟩ :=
    @exists_result tz K columns htypes h .union false [a, c] [b] hleft hright
  have hba : rowEqual tz b a = true := by
    have hlength := (htypes a ha).length_eq.symm.trans (htypes b hb).length_eq
    rw [rowEqual, isDuplicateRow_comm hlength (isDuplicateRow_eq hK ha hb)]
    exact hab
  have hkept : kept = [a, c] := by
    have hfirst : keepFirst (rowEqual tz) [] [a, c] = [a, c] := by simp [keepFirst, hac]
    have hstep : combine ⟨.union, false, columns⟩ tz [a, c] [b] =
        .ok (keepFirst (rowEqual tz) [a, c] [b]) := by
      change (List.foldlM _ [] [a, c] >>= _) = _
      rw [foldlM_keepUnion rfl hK (by simp) hleft, hfirst,
        ← foldlM_keepUnion (o := ⟨.union, false, columns⟩) rfl hK hleft hright]
      rfl
    rw [hstep] at hcombine
    rw [← Except.ok.inj hcombine]
    simp [keepFirst, hab]
  have hsame : result = [a, c] := by
    have hback : [a, c].mapM (fun row => readRow ⟨.union, false, columns⟩
        (resultRow ⟨.union, false, columns⟩ row)) = .ok [a, c] :=
      mapM_of_forall₂ (List.forall₂_same.mpr fun row hrow =>
        readsBack_of_combines htypes h .union false row (hleft row hrow))
    rw [hkept, hback] at hread
    exact (Except.ok.inj hread).symm
  have hcount := hresult.occurrences b (by simp)
  rw [hsame, occurrences_cons, occurrences_cons, if_pos hba, if_pos hbc] at hcount
  simp only [multiplicity] at hcount
  split_ifs at hcount
  omega

/-- Every row occurs as often as it should in the result of every set operation of these
columns, if and only if the rows can be read back, and equality is transitive. -/
theorem combines_iff {columns : List Column} (htypes : HasTypes tz columns K) :
    Combines tz columns K ↔
      (∀ op all, ReadsBack ⟨op, all, columns⟩ K) ∧ RowsComparable tz K ∧
        EqualityTransitive tz K :=
  ⟨fun h => ⟨readsBack_of_combines htypes h, rowsComparable_of_combines htypes h,
      equalityTransitive_of_combines htypes h⟩,
    fun h => combines_of_transitive htypes h.1 h.2.1 h.2.2⟩

theorem convertToCombinedType_self {v : Value} (hscale : v.typ.typ.isExactDecimal = false) :
    convertToCombinedType tz v v.typ = .ok v := by
  simp [convertToCombinedType, hscale, pure, Except.pure]

/-- `a` and `b`, a `VARCHAR(10)` and a `DOUBLE PRECISION` -/
def sampleColumns : List Column :=
  [{ name := { subEntityName := ['A'] }, typ := { typ := .varchar, size := 10 }, notNull := false },
    { name := { subEntityName := ['B'] }, typ := { typ := .doublePrecision }, notNull := false }]

theorem hasTypes_sampleColumns :
    HasTypes noTimeZone sampleColumns (OrderedKeys (sampleColumns.map (·.typ))) := by
  intro values hvalues
  refine forall₂_imp_of_mem (List.forall₂_map_left_iff.mp hvalues) fun column hcolumn v hv => ?_
  have hinexact : column.typ.typ.isExactDecimal = false := by
    obtain rfl | rfl := List.mem_pair.mp hcolumn <;> rfl
  rw [← hv.typ] at hinexact ⊢
  exact convertToCombinedType_self hinexact

theorem combines_iff_types :
    Combines noTimeZone sampleColumns (OrderedKeys (sampleColumns.map (·.typ))) := by
  have hlength : ∀ row ∈ OrderedKeys (sampleColumns.map (·.typ)), row.length = 2 := fun row hrow =>
    OrderOperation.length_of_mem_orderedKeys hrow
  have hnames : ∀ column ∈ sampleColumns, IsResultName column.name := by
    intro column hcolumn
    obtain rfl | rfl := List.mem_pair.mp hcolumn <;> exact ⟨rfl, rfl, rfl, by simp⟩
  have hcomparable : Comparable noTimeZone [⟨true⟩, ⟨true⟩]
      (OrderedKeys (sampleColumns.map (·.typ))) :=
    comparable_orderedKeys rfl
  refine (combines_iff hasTypes_sampleColumns).mpr ⟨fun op all row hrow => ?_, ?_, ?_⟩
  · exact readRow_resultRow hnames (by dsimp only; decide) (hlength row hrow)
  · exact (rowsComparable_iff hlength).mpr hcomparable
  · exact @equalityTransitive_of_negTransitive _ [⟨true⟩, ⟨true⟩] _ hlength hcomparable
      (negTransitive_orderedKeys rfl)

def doubleRow (x : F64) : List Value := [OrderOperation.doubleValue x]

/-- `1` and `2`, and NaN, which is equal to both of them. -/
theorem not_combines_nan :
    let columns := sampleColumns.drop 1
    let o : SetOperationOperation := ⟨.union, false, columns⟩
    let left := [o.resultRow (doubleRow (.ofInt 1)), o.resultRow (doubleRow (.ofInt 2))]
    let right := [o.resultRow (doubleRow (.nan _))]
    (o.execute noTimeZone left columns right columns >>= fun rows => rows.mapM o.readRow) =
        .ok [doubleRow (.ofInt 1), doubleRow (.ofInt 2)] ∧
      ¬Combines noTimeZone columns
        {doubleRow (.ofInt 1), doubleRow (.ofInt 2), doubleRow (.nan _)} := by
  refine ⟨by decide +kernel, fun h => ?_⟩
  have htypes : HasTypes noTimeZone (sampleColumns.drop 1)
      {doubleRow (.ofInt 1), doubleRow (.ofInt 2), doubleRow (.nan _)} := by
    rintro values (rfl | rfl | rfl) <;>
      exact .cons (convertToCombinedType_self rfl) .nil
  have hequal : rowEqual noTimeZone (doubleRow (.ofInt 1)) (doubleRow (.ofInt 2)) = true :=
    equalityTransitive_of_combines htypes h _ (by simp) _ (.inr (.inr rfl)) _ (.inr (.inl rfl))
      (by decide +kernel) (by decide +kernel)
  revert hequal
  decide +kernel

end SetOperationOperation

end Vsql
