import Vsql.Rows.Row

/-!
# Names of columns as keys

The key of a value in a row is made from the names of its table and column, with a
period between them, and is taken apart again at the periods.  So the names are opaque
only when the name of no column has a period of its own.
-/

namespace Vsql.Rows

open Foundation

/-! ## UPDATE -/

def sqlstate42703 (columnName : Text) : Failure :=
  .error .s42703 s!"no such column: {columnName.str}"

def sqlstate23502 (columnName : Text) : Failure :=
  .error .s23502 s!"violates non-null constraint: column {columnName.str}"

def sqlstate42846 (source t : DataType) : Failure :=
  .error .s42846 s!"cannot coerce {source.str} to {t.str}"

def Table.column (t : Table) (name : Text) : Except Failure Column :=
  match t.columns.find? (fun col => col.name.subEntityName = name) with
  | some col => .ok col
  | none => .error (sqlstate42703 name)

def checkAssignable (source t : DataType) : Except Failure Unit :=
  if (source.typ.isString && t.typ.isNumber) || (source.typ.isNumber && t.typ.isString) ||
      (t.typ == .boolean && source.typ != .boolean) ||
      (source.typ == .boolean && t.typ.isNumber) ||
      ((source.typ.isDatetime || t.typ.isDatetime) &&
        !(source.typ.isDatetime && t.typ.isDatetime &&
          source.typ.datetimeFields == t.typ.datetimeFields)) then
    .error (sqlstate42846 source t)
  else .ok ()

def checkStoreAssignment (v : Value) (t : DataType) : Except Failure Unit :=
  if v.isNull then .ok () else checkAssignable v.typ t

/-- The source is evaluated for the old row. -/
structure SetClause where
  columnName : Text
  source : Row → Except Failure Value

def columnId (rowTableId columnName : Text) : Text := rowTableId ++ '.' :: columnName

/-- The new row after one more clause, and whether it was modified. -/
def setColumn (timeZone : TimeZone) (t : Table) (row : Row) (new : Row × Bool)
    (clause : SetClause) : Except Failure (Row × Bool) := do
  let col ← t.column clause.columnName
  let raw ← clause.source row
  if col.notNull && raw.isNull then throw (sqlstate23502 clause.columnName)
  checkStoreAssignment raw col.typ
  let id := columnId t.name.id clause.columnName
  let cmp ← Value.compare timeZone (row.value id) raw
  if cmp = .isEqual then pure new
  else do
    let value ← cast timeZone raw col.typ
    pure ({ new.1 with data := new.1.data.set id value }, true)

/-- The row before and after the update, if it is modified.  The generated columns are
set after this. -/
def updateRow (timeZone : TimeZone) (t : Table) (set : List SetClause) (row : Row) :
    Except Failure (Option (Row × Row)) := do
  let (new, didModify) ← set.foldlM (setColumn timeZone t row) (row, false)
  pure (if didModify then some (row.forStorage, new.forStorage) else none)

/-! ## The tables of a FROM clause -/

/-- A base table, with or without a correlation name. -/
structure TablePrimary where
  table : Table
  correlationName : Text := []

namespace TablePrimary

def name (p : TablePrimary) : Identifier :=
  if p.correlationName ≠ [] then { subEntityName := p.correlationName } else p.table.name

/-- The keys of the columns in the rows of the table. -/
def columnIds (p : TablePrimary) : List Text :=
  p.table.columns.map fun col =>
    if p.correlationName ≠ [] then
      Identifier.id { entityName := p.name.id, subEntityName := col.name.subEntityName }
    else col.name.id

end TablePrimary

def unqualifiedRangeVariable (name : Identifier) : Text :=
  if name.entityName ≠ [] then name.entityName else name.subEntityName

def isSameRangeVariable (a b : Identifier) : Bool :=
  ((a.entityName != []) != (b.entityName != [])) &&
    unqualifiedRangeVariable a == unqualifiedRangeVariable b

def specifiedTwice (name : Text) : Failure :=
  sqlstate42601 s!"table name {name.str} specified more than once"

def addTable (tables : List TablePrimary) (p : TablePrimary) :
    Except Failure (List TablePrimary) :=
  if p.name.id ∈ tables.map (·.name.id) then .error (specifiedTwice p.name.str)
  else if tables.any fun other => isSameRangeVariable p.name other.name then
    .error (specifiedTwice (unqualifiedRangeVariable p.name))
  else .ok (tables ++ [p])

/-- The tables are added from left to right. -/
def fromClause (tables : List TablePrimary) : Except Failure (List TablePrimary) :=
  tables.foldlM addTable []

/-! ## The parts of a key -/

theorem intercalate_append_singleton {ps : List Text} (h : ps ≠ []) (c : Text) :
    ['.'].intercalate (ps ++ [c]) = ['.'].intercalate ps ++ '.' :: c := by
  induction ps with
  | nil => exact absurd rfl h
  | cons p ps ih =>
      cases ps with
      | nil => simp [List.intercalate]
      | cons q qs =>
          have hnext := ih (by simp)
          simp only [List.cons_append, List.intercalate_cons_cons] at hnext ⊢
          rw [hnext]
          simp

theorem id_of_subEntityName {e : Identifier} {c : Text} (hcustom : e.customId = [])
    (hsub : e.subEntityName = []) (hentity : e.entityName ≠ []) (hc : c ≠ []) :
    ({ e with subEntityName := c } : Identifier).id = columnId e.id c := by
  have hparts : ({ e with subEntityName := c } : Identifier).parts = e.parts ++ [c] := by
    simp [Identifier.parts, hsub, hc, List.filter_cons]
    split <;> split <;> simp
  have hne : e.parts ≠ [] := by
    simp [Identifier.parts, hentity, List.filter_cons]
    split <;> split <;> simp
  have hjoined := intercalate_append_singleton hne c
  rw [← hparts] at hjoined
  simpa [Identifier.id, hcustom, columnId] using hjoined

theorem Table.id_column (t : Table) {col : Column} (hcol : col ∈ t.columns) :
    col.name.id = columnId t.name.id col.name.subEntityName := by
  obtain ⟨hname, hne⟩ := t.column_name col hcol
  have h := id_of_subEntityName t.name_customId t.name_subEntityName t.name_entityName hne
  rwa [← hname] at h

theorem not_mem_of_mem_splitOn {part key : Text} (h : part ∈ key.splitOn '.') :
    '.' ∉ part := by
  induction key generalizing part with
  | nil =>
      rw [List.splitOn_nil, List.mem_singleton] at h
      simp [h]
  | cons x key ih =>
      rw [List.splitOn_cons_eq_if_modifyHead] at h
      split at h
      · obtain rfl | h := List.mem_cons.mp h
        · simp
        · exact ih h
      · next hx =>
          have hne : '.' ≠ x := fun heq => hx (by simpa using heq.symm)
          cases hparts : key.splitOn '.' with
          | nil => exact absurd hparts (List.splitOn_ne_nil _ _)
          | cons p ps =>
              rw [hparts] at h ih
              obtain rfl | h := List.mem_cons.mp h
              · have hp : '.' ∉ p := ih (by simp)
                simpa [hne] using hp
              · exact ih (by simp [h])

theorem not_mem_lastPart (key : Text) : '.' ∉ lastPart key :=
  not_mem_of_mem_splitOn (List.getLast_mem _)

theorem lastPart_columnId (tableId : Text) {c : Text} (hc : '.' ∉ c) :
    lastPart (columnId tableId c) = c := by
  have hsplit : (columnId tableId c).splitOn '.' = tableId.splitOn '.' ++ [c] := by
    rw [columnId, List.splitOn_append_cons_self, List.splitOn_eq_singleton hc]
  simp only [lastPart, hsplit, List.getLast_append_singleton]

theorem columnId_inj {a b c d : Text} (hc : '.' ∉ c) (hd : '.' ∉ d)
    (h : columnId a c = columnId b d) : a = b ∧ c = d := by
  have hlast : c = d := by
    rw [← lastPart_columnId a hc, h, lastPart_columnId b hd]
  subst hlast
  exact ⟨List.append_cancel_right h, rfl⟩

/-! ## Reducing a row -/

/-- The row has a value for each column, under its id. -/
def Row.HasColumns (r : Row) (t : Table) : Prop := r.data.keys = t.columnIds

theorem Table.nodup_columnIds (t : Table) : t.columnIds.Nodup := by
  have hids : t.columnIds =
      (t.columns.map (·.name.subEntityName)).map (columnId t.name.id) := by
    rw [Table.columnIds, List.map_map]
    exact List.map_congr_left fun col hcol => t.id_column hcol
  rw [hids]
  refine t.nodup.map fun c d h => ?_
  simpa [columnId] using h

theorem readAs_entries (r : Row) (t : Table) (tid : Nat) :
    (r.readAs t tid).data.entries =
      t.columns.map fun col => (col.name.id, readBack col (r.value col.name.subEntityName)) := by
  have hset : (r.readAs t tid).data = OrderedMap.setAll (t.columns.map fun col =>
      (col.name.id, readBack col (r.value col.name.subEntityName))) .empty := by
    simp [Row.readAs, readBackColumns, OrderedMap.setAll, List.foldl_map]
  rw [hset, OrderedMap.entries_setAll]
  · rfl
  · have hids := t.nodup_columnIds
    rw [Table.columnIds] at hids
    simpa [OrderedMap.empty, Function.comp_def] using hids

theorem hasColumns_readAs (r : Row) (t : Table) (tid : Nat) : (r.readAs t tid).HasColumns t := by
  simp [Row.HasColumns, OrderedMap.keys, readAs_entries, Table.columnIds]

theorem value_readAs {r : Row} {t : Table} {col : Column} (hcol : col ∈ t.columns) (tid : Nat) :
    (r.readAs t tid).value col.name.id = readBack col (r.value col.name.subEntityName) := by
  have hmem : (col.name.id, readBack col (r.value col.name.subEntityName)) ∈
      (r.readAs t tid).data.entries := by
    rw [readAs_entries]
    exact List.mem_map.mpr ⟨col, hcol, rfl⟩
  rw [Row.value, (OrderedMap.get?_eq_some _).mpr hmem, Option.getD_some]

theorem forStorage_data (r : Row) : r.forStorage.data =
    OrderedMap.setAll (r.data.entries.map fun e => (lastPart e.1, e.2)) .empty := by
  simp [Row.forStorage, OrderedMap.setAll, List.foldl_map]

/-- A name with a period is never the last part of a key. -/
theorem value_forStorage_of_period (r : Row) {name : Text} (h : '.' ∈ name) :
    r.forStorage.value name = zeroValue := by
  have hnone : r.forStorage.data.get? name = none := by
    rw [forStorage_data, OrderedMap.get?_setAll_of_not_mem]
    · rfl
    · simp only [List.map_map, List.mem_map, Function.comp_apply, not_exists, not_and]
      rintro e - rfl
      exact not_mem_lastPart e.1 h
  rw [Row.value, hnone, Option.getD_none]

/-- No name of a column has a period. -/
def Table.NoPeriods (t : Table) : Prop := ∀ col ∈ t.columns, '.' ∉ col.name.subEntityName

/-- The row has a value for each column, under its name in the table with the id. -/
def Row.HasColumnsIn (tableId : Text) (r : Row) (t : Table) : Prop :=
  r.data.keys = t.columns.map fun col => columnId tableId col.name.subEntityName

theorem Row.HasColumns.hasColumnsIn {r : Row} {t : Table} (h : r.HasColumns t) :
    r.HasColumnsIn t.name.id t := by
  rw [Row.HasColumnsIn, h, Table.columnIds]
  exact List.map_congr_left fun col hcol => t.id_column hcol

theorem Row.HasColumnsIn.mem_keys {tableId : Text} {r : Row} {t : Table}
    (h : r.HasColumnsIn tableId t) {col : Column} (hcol : col ∈ t.columns) :
    columnId tableId col.name.subEntityName ∈ r.data.keys := by
  rw [h]
  exact List.mem_map.mpr ⟨col, hcol, rfl⟩

theorem value_forStorage_in {tableId : Text} {r : Row} {t : Table}
    (hcolumns : r.HasColumnsIn tableId t) (ht : t.NoPeriods) {col : Column}
    (hcol : col ∈ t.columns) :
    r.forStorage.value col.name.subEntityName =
      r.value (columnId tableId col.name.subEntityName) := by
  have hlast : ∀ c ∈ t.columns,
      lastPart (columnId tableId c.name.subEntityName) = c.name.subEntityName := fun c hc =>
    lastPart_columnId tableId (ht c hc)
  have hnodup : (r.data.keys.map lastPart).Nodup := by
    have hnames : t.columns.map (lastPart ∘ fun col => columnId tableId col.name.subEntityName) =
        t.columns.map (·.name.subEntityName) := List.map_congr_left hlast
    rw [hcolumns, List.map_map, hnames]
    exact t.nodup
  have hget := OrderedMap.get?_foldl_set_map hnodup (hcolumns.mem_keys hcol)
  rw [hlast col hcol] at hget
  rw [Row.value, Row.value, ← hget]
  rfl

theorem value_forStorage {r : Row} {t : Table} (hcolumns : r.HasColumns t) (ht : t.NoPeriods)
    {col : Column} (hcol : col ∈ t.columns) :
    r.forStorage.value col.name.subEntityName = r.value col.name.id := by
  rw [value_forStorage_in hcolumns.hasColumnsIn ht hcol, ← t.id_column hcol]

end Vsql.Rows
