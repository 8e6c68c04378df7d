import Vsql.Rows.Names

/-!
# Correlation names

A table that is given a correlation name is read like a derived table: each key of a row is
replaced by the name of the correlation and the new name of its column.
-/

namespace Vsql.Rows

open Foundation

/-! ## Reading a subplan -/

/-- The new names of the columns of a subplan, by their names and by their ids. -/
def newNames (columns : List Identifier) (names : List Text) : OrderedMap Text Text :=
  OrderedMap.setAll
    ((columns.zip names).flatMap fun c => [(c.1.subEntityName, c.2), (c.1.id, c.2)]) .empty

def renamed (tableId : Text) (names : OrderedMap Text Text) (k : Text) : Text :=
  columnId tableId ((names.get? k).getD k)

/-- A row of the subplan as a row of the table. -/
def Row.correlated (tableId : Text) (names : OrderedMap Text Text) (r : Row) : Row :=
  { r with
    data := r.data.entries.foldl (fun data e => data.set (renamed tableId names e.1) e.2) .empty }

/-! ## A correlation name of a base table -/

variable {t : Table}

theorem mem_columnId (tableId c : Text) : '.' ∈ columnId tableId c := by
  simp [columnId]

theorem get?_newNames (ht : t.NoPeriods) {col : Column} (hcol : col ∈ t.columns) :
    (newNames (t.columns.map (·.name)) (t.columns.map (·.name.subEntityName))).get?
      col.name.id = some col.name.subEntityName := by
  have hzip : (t.columns.map (·.name)).zip (t.columns.map (·.name.subEntityName)) =
      t.columns.map fun c => (c.name, c.name.subEntityName) := by
    rw [List.zip_map', List.map_congr_left fun _ _ => rfl]
  have hid : ∀ c ∈ t.columns, '.' ∈ c.name.id := fun c hc => by
    rw [t.id_column hc]
    exact mem_columnId _ _
  have hids := t.nodup_columnIds
  have hnames := t.nodup
  rw [Table.columnIds] at hids
  rw [newNames, hzip]
  refine OrderedMap.get?_setAll_of_mem ?_ ?_
  · rw [List.flatMap_map, List.map_flatMap, List.nodup_flatMap]
    refine ⟨fun c hc => ?_, ?_⟩
    · have hne : c.name.subEntityName ≠ c.name.id := fun heq => ht c hc (heq ▸ hid c hc)
      simpa using hne
    · rw [List.Nodup, List.pairwise_map] at hids hnames
      refine (hids.and hnames).imp_of_mem fun {c d} hc hd hne => ?_
      have hcd : c.name.subEntityName ≠ d.name.id := fun heq => ht c hc (heq ▸ hid d hd)
      have hdc : c.name.id ≠ d.name.subEntityName := fun heq => ht d hd (heq ▸ hid c hc)
      simp [hne.1.symm, hne.2.symm, hcd.symm, hdc.symm]
  · rw [List.mem_flatMap]
    exact ⟨_, List.mem_map.mpr ⟨col, hcol, rfl⟩, by simp⟩

variable {r : Row} (tableId : Text)

theorem renamed_columns (ht : t.NoPeriods) (hcolumns : r.HasColumns t) :
    r.data.keys.map (renamed tableId
        (newNames (t.columns.map (·.name)) (t.columns.map (·.name.subEntityName)))) =
      t.columns.map fun col => columnId tableId col.name.subEntityName := by
  rw [hcolumns, Table.columnIds, List.map_map]
  refine List.map_congr_left fun col hcol => ?_
  rw [Function.comp_apply, renamed, get?_newNames ht hcol, Option.getD_some]

theorem nodup_columnIds_in (t : Table) :
    (t.columns.map fun col => columnId tableId col.name.subEntityName).Nodup := by
  have hnodup := t.nodup.map (f := columnId tableId) fun c d h => by simpa [columnId] using h
  rwa [List.map_map] at hnodup

theorem hasColumnsIn_correlated (ht : t.NoPeriods) (hcolumns : r.HasColumns t) :
    (r.correlated tableId
      (newNames (t.columns.map (·.name)) (t.columns.map (·.name.subEntityName)))).HasColumnsIn
      tableId t := by
  have hkeys := renamed_columns tableId ht hcolumns
  have hentries := OrderedMap.entries_foldl_set_map (hkeys ▸ nodup_columnIds_in tableId t)
  rw [Row.HasColumnsIn, ← hkeys, OrderedMap.keys, Row.correlated, hentries, OrderedMap.keys,
    List.map_map, List.map_map]
  rfl

theorem value_correlated (ht : t.NoPeriods) (hcolumns : r.HasColumns t) {col : Column}
    (hcol : col ∈ t.columns) :
    (r.correlated tableId
      (newNames (t.columns.map (·.name)) (t.columns.map (·.name.subEntityName)))).value
      (columnId tableId col.name.subEntityName) = r.value col.name.id := by
  have hkeys := renamed_columns tableId ht hcolumns
  have hmem : col.name.id ∈ r.data.keys := by
    rw [hcolumns]
    exact List.mem_map.mpr ⟨col, hcol, rfl⟩
  have hget := OrderedMap.get?_foldl_set_map (hkeys ▸ nodup_columnIds_in tableId t) hmem
  have hname := get?_newNames ht hcol
  rw [renamed, hname, Option.getD_some] at hget
  rw [Row.value, Row.value, ← hget]
  rfl

end Vsql.Rows
