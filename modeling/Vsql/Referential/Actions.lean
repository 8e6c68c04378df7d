import Mathlib.Data.List.Sort
import Vsql.Foundation.Loop
import Vsql.Foundation.OrderedMap
import Vsql.Queries.KeyRange

/-!
# Referential actions

A statement that deletes or updates rows carries out the actions of the FOREIGN
KEYs that reference them.  The changes that an action makes can have actions of
their own, so a loop takes one batch of changes after the other until there are
none.  A column of a row that was updated by an action cannot be updated to a
distinct value by another one.
-/

namespace Vsql.Referential

open Foundation

/-! ## Tables -/

inductive Action where
  | cascade
  | setNull
  | setDefault
  deriving DecidableEq

structure ForeignKey where
  columns : List String
  referencedTable : String
  referencedColumns : List String
  updateRule : Option Action := none
  deleteRule : Option Action := none
  /-- The index of the table whose first columns are the columns of the key. -/
  indexId : Nat
  indexColumns : List (String × Bool)

/-- An action of the key can update its columns. -/
def ForeignKey.updates (k : ForeignKey) : Bool :=
  k.updateRule.isSome || k.deleteRule == some .setNull || k.deleteRule == some .setDefault

structure Row where
  id : Bytes
  data : OrderedMap String Value
  deriving DecidableEq

def Row.get (row : Row) (column : String) : Value :=
  (row.data.get? column).getD (Value.null { typ := .boolean })

def Row.set (row : Row) (column : String) (value : Value) : Row :=
  { row with data := row.data.set column value }

structure Column where
  name : String
  typ : DataType

structure Table where
  id : Nat
  name : String
  columns : List Column
  primaryKey : List String := []
  foreignKeys : List ForeignKey := []
  generated : List String := []
  /-- The expression of a generated column, cast to the type of the column. -/
  generate : String → Row → Except Failure Value := fun _ row => .ok (row.get "")
  /-- The CHECK constraints that are not deferred. -/
  verify : Row → Except Failure Unit := fun _ => .ok ()
  /-- A generated column cannot be changed by a referential action. -/
  notGenerated : ∀ k ∈ foreignKeys, k.updates = true → ∀ c ∈ k.columns, c ∉ generated :=
    by simp

def Table.column (t : Table) (name : String) : Except Failure Column :=
  match t.columns.find? (·.name = name) with
  | some column => .ok column
  | none => .error (.error .sXX000 s!"no such column: {name}")

def Table.typ (t : Table) (name : String) : SqlType :=
  match t.columns.find? (·.name = name) with
  | some column => column.typ.typ
  | none => .boolean

/-- The ID of a stored row: its PRIMARY KEY, if there is one. -/
def Table.rowId (t : Table) (row : Row) : Bytes :=
  if t.primaryKey = [] then row.id
  else t.primaryKey.flatMap fun c => writeKeyValue (row.get c) (t.typ c)

abbrev SiteKey : Type := String × Bytes

/-- `changed_site_key`: the table and the object key of a row. -/
def Table.siteKey (t : Table) (row : Row) : SiteKey :=
  (t.name, rowKeyPrefix t.id ++ t.rowId row)

/-! ## Keys -/

theorem natAbs_intValue_lt (v : Value) : v.intValue.natAbs < 2 ^ 64 := by
  unfold Value.intValue
  split
  · next x hx =>
      have hfits := v.fits (.int x) (by rw [hx]; rfl)
      have hbits : (2 : Int) ^ (v.typ.typ.intBits - 1) ≤ 2 ^ 63 := by
        refine pow_le_pow_right₀ (by norm_num) ?_
        unfold SqlType.intBits
        split <;> omega
      have hlow := hfits.2.1
      have hhigh := hfits.2.2
      omega
  · simp

/-- `key_type_value`: the value as the type that it is compared as in a key. -/
def keyTypeValue (value : Value) (typ : SqlType) (timeZone : TimeZone) : Value :=
  if value.typ.typ.isInteger && typ == .doublePrecision then
    ⟨{ typ := .doublePrecision }, some (.f64 (BinaryFloat.ofInt value.intValue)), by
      simp [Content.Fits]⟩
  else if value.typ.typ.isInteger && typ == .numeric then
    ⟨(Numeric.ofInt value.intValue).typ, some (.numeric (Numeric.ofInt value.intValue)), by
      have hbound := natAbs_intValue_lt value
      rintro c ⟨⟩
      refine ⟨rfl, ⟨rfl, Nat.zero_le _⟩, ⟨Int.one_pos, by simp [Numeric.ofInt]⟩, ?_⟩
      have hpow : (2 : Int) ^ 64 ≤ 10 ^ maxNumericPrecision := by
        rw [maxNumericPrecision]
        calc (2 : Int) ^ 64 ≤ 10 ^ 64 := pow_le_pow_left₀ (by norm_num) (by norm_num) _
          _ ≤ 10 ^ 1000 := pow_le_pow_right₀ (by norm_num) (by norm_num)
      simp only [Numeric.ofInt, mul_one]
      omega⟩
  else if value.typ.typ.isExactDecimal && typ == .doublePrecision then
    ⟨{ typ := .doublePrecision }, some (.f64 value.numericValue.f64), by
      simp [Content.Fits]⟩
  else if value.typ.typ.isDatetime && !value.typ.typ.hasTimeZone && typ.hasTimeZone then
    match h : value.v with
    | some (.time t) =>
        ⟨value.typ, some (.time { t with timeZone := timeZone }), by
          rintro c ⟨⟩
          exact value.fits (.time t) (by rw [h]; rfl)⟩
    | _ => value
  else value

/-- `key_value`, which is empty when one of the values is NULL. -/
def keyValue (timeZone : TimeZone) (row : Row) (columns : List String)
    (types : List SqlType) : Bytes :=
  if columns.any fun c => (row.get c).isNull then []
  else (columns.zip types).flatMap fun c =>
    writeKeyValue (keyTypeValue (row.get c.1) c.2 timeZone) c.2

def foreignKeyTypes (referencing : Table) (columns : List String) (referenced : Table)
    (referencedColumns : List String) : List SqlType :=
  List.zipWith (fun c r => SqlType.foreignKeyType (referencing.typ c) (referenced.typ r))
    columns referencedColumns

/-- A row of `toTable` with the values of `row`, if its columns can hold them. -/
def searchRow (timeZone : TimeZone) (row : Row) (fromColumns : List String)
    (toTable : Table) (toColumns : List String) : Except Failure Row :=
  (toColumns.zip fromColumns).foldlM
    (fun search c => do
      let column ← toTable.column c.1
      let value ← exactCast timeZone (row.get c.2) column.typ
      pure (search.set c.1 value))
    ⟨[], .empty⟩

/-- The values of the first `n` columns of the index of a key. -/
def entryPrefix (referencing : Table) (key : ForeignKey) (row : Row) (n : Nat) : Bytes :=
  indexEntryPrefix key.indexId ++ (key.indexColumns.take n).flatMap fun c =>
    let typ : DataType := { typ := referencing.typ c.1 }
    (KeyColumn.mk typ true c.2).valuePart (row.get c.1)

def entryKey (referencing : Table) (key : ForeignKey) (row : Row) : Bytes :=
  entryPrefix referencing key row key.indexColumns.length ++ referencing.rowId row

/-! ## Changes -/

inductive RowChange where
  | delete (old : Row)
  | update (old new : Row)
  deriving DecidableEq

def RowChange.old : RowChange → Row
  | .delete old => old
  | .update old _ => old

/-- The columns that actions have updated, and the rows that they have deleted. -/
structure ChangedSites where
  updated : OrderedMap SiteKey (OrderedMap String Value) := .empty
  deleted : List (String × Row) := []
  deriving DecidableEq

/-- The batches are taken from the front; `old` and `written` are what is checked in
the end. -/
structure State where
  rows : OrderedMap SiteKey Row
  sites : ChangedSites := {}
  pending : List (String × List RowChange)
  old : List (String × Row) := []
  written : OrderedMap SiteKey Row := .empty
  deriving DecidableEq

/-- Two values are distinct, where NULL is not distinct from NULL. -/
def isDistinct (timeZone : TimeZone) (a b : Value) : Except Failure Bool :=
  if a.isNull || b.isNull then .ok (a.isNull != b.isNull)
  else do
    let cmp ← Value.compare timeZone a b
    pure (cmp != .isEqual)

def isDistinctFrom (timeZone : TimeZone) (previous : Option Value) (value : Value) :
    Except Failure Bool :=
  match previous with
  | some previous => isDistinct timeZone previous value
  | none => .ok false

/-- The columns of a row that has been updated by one more action. -/
def updateSites (timeZone : TimeZone) (table : Table) (new : Row) :
    List String → OrderedMap String Value → Except Failure (OrderedMap String Value)
  | [], sites => .ok sites
  | column :: columns, sites => do
      let value := new.get column
      let distinct ← isDistinctFrom timeZone (sites.get? column) value
      if distinct then
        throw (sqlstate27000
          s!"column {column} of a row of {table.name} is updated to two different values")
      else updateSites timeZone table new columns (sites.set column value)

/-- The sites of the rows that an action deleted or replaced, from before any of
them changed. -/
def newSites (timeZone : TimeZone) (table : Table) (columns : List String)
    (sites : ChangedSites) : List RowChange →
      Except Failure (List (SiteKey × OrderedMap String Value))
  | [] => .ok []
  | .delete old :: changes =>
      if (sites.updated.get? (table.siteKey old)).any (·.entries ≠ []) then
        throw (sqlstate27000 s!"a row of {table.name} that was updated is deleted")
      else newSites timeZone table columns sites changes
  | .update old new :: changes => do
      let before := (sites.updated.get? (table.siteKey old)).getD .empty
      let after ← updateSites timeZone table new columns before
      let rest ← newSites timeZone table columns sites changes
      pure ((table.siteKey new, after) :: rest)

/-- `ChangedSites.add`. -/
def ChangedSites.add (sites : ChangedSites) (timeZone : TimeZone) (table : Table)
    (changes : List RowChange) (columns : List String) : Except Failure ChangedSites := do
  let updated ← newSites timeZone table columns sites changes
  let cleared := changes.foldl (fun m c => m.erase (table.siteKey c.old)) sites.updated
  pure
    { updated := updated.foldl (fun m e => m.set e.1 e.2) cleared
      deleted := sites.deleted ++ changes.filterMap fun
        | .delete old => some (table.name, old)
        | .update _ _ => none }

/-- What the rows of a batch are stored as: a row that gets a new PRIMARY KEY is
deleted, and only written again once all of the rows have been deleted. -/
def storeChanges (table : Table) :
    List RowChange → OrderedMap SiteKey Row → Except Failure (OrderedMap SiteKey Row × List Row)
  | [], rows => .ok (rows, [])
  | change :: changes, rows => do
      let before := table.siteKey change.old
      if rows.contains before then
        match change with
        | .delete _ => storeChanges table changes (rows.erase before)
        | .update _ new =>
            if before = table.siteKey new then
              storeChanges table changes (rows.set before new)
            else
              let (rows, moved) ← storeChanges table changes (rows.erase before)
              pure (rows, new :: moved)
      else throw (sqlstateXX001 "DELETE: integrity issue, preventing panic")

def writeMoved (table : Table) :
    List Row → OrderedMap SiteKey Row → Except Failure (OrderedMap SiteKey Row)
  | [], rows => .ok rows
  | row :: moved, rows =>
      if rows.contains (table.siteKey row) then
        .error (.error .s23505 s!"violates unique constraint: PRIMARY KEY on {table.name}")
      else writeMoved table moved (rows.set (table.siteKey row) row)

/-- The latest version of each row that was written. -/
def addWritten (table : Table) (changes : List RowChange)
    (written : OrderedMap SiteKey Row) : OrderedMap SiteKey Row :=
  let inPlace := changes.foldl
    (fun written change =>
      let written := written.erase (table.siteKey change.old)
      match change with
      | .update old new =>
          if table.siteKey old = table.siteKey new then written.set (table.siteKey new) new
          else written
      | .delete _ => written)
    written
  changes.foldl
    (fun written change =>
      match change with
      | .update old new =>
          if table.siteKey old = table.siteKey new then written
          else written.set (table.siteKey new) new
      | .delete _ => written)
    inPlace

/-! ## Actions -/

/-- The keys of a referenced table that changes delete and update, with an old row
that has each of them. -/
structure KeyChanges where
  deleted : List Bytes := []
  updated : OrderedMap Bytes Row := .empty
  keys : OrderedMap Bytes Row := .empty

def KeyChanges.add (timeZone : TimeZone) (key : ForeignKey) (types : List SqlType)
    (kc : KeyChanges) (change : RowChange) : KeyChanges :=
  let value := keyValue timeZone change.old key.referencedColumns types
  if value = [] then kc
  else
    match change with
    | .delete old =>
        if key.deleteRule.isSome then
          { kc with deleted := value :: kc.deleted, keys := kc.keys.set value old }
        else kc
    | .update old new =>
        if key.updateRule.isSome ∧
            keyValue timeZone new key.referencedColumns types ≠ value then
          { kc with updated := kc.updated.set value new, keys := kc.keys.set value old }
        else kc

def keyChanges (timeZone : TimeZone) (key : ForeignKey) (types : List SqlType)
    (changes : List RowChange) : KeyChanges :=
  changes.foldl (KeyChanges.add timeZone key types) {}

/-- The rows of the referencing table that reference one of the keys, in the order of
the rows. -/
def matchingRows (timeZone : TimeZone) (key : ForeignKey) (referencing : Table)
    (types : List SqlType) (keys : OrderedMap Bytes Row) (rows : OrderedMap SiteKey Row) :
    List Row :=
  let prefixes := keys.entries.filterMap fun k =>
    match searchRow timeZone k.2 key.referencedColumns referencing key.columns with
    | .ok search => some (entryPrefix referencing key search key.columns.length)
    | .error _ => none
  let matching := rows.entries.filter fun e =>
    e.1.1 == referencing.name &&
      prefixes.any (fun p => decide (p ≤ entryKey referencing key e.2 ∧
        entryKey referencing key e.2 ≤ nextKey p)) &&
      keys.contains (keyValue timeZone e.2 key.columns types)
  (matching.insertionSort fun a b => a.1.2 ≤ b.1.2).map (·.2)

/-- What a round of the loop does not decide by itself: the values of DEFAULT, which
can be different each time, and an error of the storage. -/
structure Round where
  default : ForeignKey → SiteKey → String → Except Failure Value := fun _ _ _ =>
    .ok (Value.null { typ := .boolean })
  fault : Option Failure := none

def sqlstate23502 (column : String) : Failure :=
  .error .s23502 s!"violates non-null constraint: column {column}"

/-- The value that an action gives a column. -/
def actionValue (round : Round) (timeZone : TimeZone) (referencing : Table)
    (key : ForeignKey) (rule : Option Action) (row referenced : Row)
    (column referencedColumn : String) : Except Failure Value := do
  let c ← referencing.column column
  let value ←
    match rule with
    | some .cascade => cast timeZone (referenced.get referencedColumn) c.typ
    | some .setNull => pure (Value.null c.typ)
    | _ => round.default key (referencing.siteKey row) column
  if c.typ.notNull && value.isNull then throw (sqlstate23502 column)
  pure value

/-- `generated_columns.apply`: every expression reads the row from before. -/
def applyGenerated (table : Table) (row : Row) : Except Failure Row :=
  table.generated.foldlM
    (fun after column => do
      let value ← table.generate column row
      let c ← table.column column
      if value.isNull && c.typ.notNull then throw (sqlstate23502 column)
      pure (after.set column value))
    row

/-- The change that an action makes to a matching row. -/
def actOnRow (round : Round) (timeZone : TimeZone) (referencing : Table) (key : ForeignKey)
    (types : List SqlType) (kc : KeyChanges) (row : Row) : Except Failure RowChange := do
  let value := keyValue timeZone row key.columns types
  let isDelete := kc.deleted.contains value
  let rule := if isDelete then key.deleteRule else key.updateRule
  if rule = some .cascade ∧ isDelete then pure (.delete row)
  else
    let referenced := (kc.updated.get? value).getD ⟨[], .empty⟩
    let after ← (key.columns.zip key.referencedColumns).foldlM
      (fun after c => do
        let v ← actionValue round timeZone referencing key rule row referenced c.1 c.2
        pure (after.set c.1 v))
      row
    let after ← applyGenerated referencing after
    referencing.verify after
    pure (.update row after)

/-- The action of one FOREIGN KEY for the changes of the table that it references. -/
def actOnKey (round : Round) (timeZone : TimeZone) (table : Table) (changes : List RowChange)
    (referencing : Table) (key : ForeignKey) (s : State) : Except Failure State := do
  let types := foreignKeyTypes referencing key.columns table key.referencedColumns
  let kc := keyChanges timeZone key types changes
  if kc.keys.entries = [] then return s
  -- A row that was deleted cannot also be updated by an action.
  let isUpdated (row : Row) : Bool :=
    let value := keyValue timeZone row key.columns types
    kc.updated.contains value ||
      (kc.deleted.contains value && key.deleteRule != some .cascade)
  if s.sites.deleted.any fun d => d.1 == referencing.name && isUpdated d.2 then
    throw (sqlstate27000 s!"a row of {referencing.name} that was deleted is updated")
  let matching := matchingRows timeZone key referencing types kc.keys s.rows
  if matching = [] then return s
  let newChanges ← matching.mapM (actOnRow round timeZone referencing key types kc)
  let sites ← s.sites.add timeZone referencing newChanges key.columns
  let (rows, moved) ← storeChanges referencing newChanges s.rows
  let rows ← writeMoved referencing moved rows
  pure
    { rows := rows
      sites := sites
      pending := (referencing.name, newChanges) :: s.pending
      old := s.old ++ newChanges.map fun c => (referencing.name, c.old)
      written := addWritten referencing newChanges s.written }

/-! ## The loop -/

/-- The tables of the catalog, in the order of their names. -/
structure Catalog where
  tables : List Table
  nodup : (tables.map (·.name)).Nodup

def Catalog.keys (catalog : Catalog) : List (Table × ForeignKey) :=
  catalog.tables.flatMap fun t => t.foreignKeys.map fun k => (t, k)

def Catalog.table? (catalog : Catalog) (name : String) : Option Table :=
  catalog.tables.find? (·.name = name)

/-- One round: the actions for the batch of changes that was added last. -/
def round (catalog : Catalog) (timeZone : TimeZone) (rounds : Nat → Round) :
    Loop.Step State Failure := fun i s =>
  match s.pending with
  | [] => none
  | (name, changes) :: rest =>
      some <|
        match catalog.table? name, (rounds i).fault with
        | none, _ => .error (.error .sXX000 s!"no such table: {name}")
        | some _, some e => .error e
        | some table, none =>
            (catalog.keys.filter fun k => k.2.referencedTable = name).foldlM
              (fun s k => actOnKey (rounds i) timeZone table changes k.1 k.2 s)
              { s with pending := rest }

/-- The state before the first round, where the rows have already been written. -/
def start (t : Table) (changes : List RowChange) (rows : OrderedMap SiteKey Row) : State where
  rows := rows
  pending := [(t.name, changes)]
  old := changes.map fun c => (t.name, c.old)
  written := changes.foldl
    (fun written change =>
      match change with
      | .update _ new => written.set (t.siteKey new) new
      | .delete _ => written)
    .empty

end Vsql.Referential
