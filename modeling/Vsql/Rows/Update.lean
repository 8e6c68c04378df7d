import Vsql.Btree
import Vsql.Queries.KeyRange
import Vsql.Rows.Codec
import Vsql.Rows.Correlation
import Vsql.Rows.Opaque

/-!
# UPDATE

The new rows are found before any of them is written.  A row whose new values compare equal
to the old ones is not written at all, and a row that gets a new key is deleted, and written
again when every other row has been.
-/

namespace Vsql.Rows

open Foundation

def sqlstate428C9 (columnName : Text) : Failure :=
  .error .s428C9 (s!"cannot assign a value other than DEFAULT to column {columnName.str}, " ++
    "which is GENERATED ALWAYS")

def sqlstate24000 (message : String) : Failure :=
  .error .s24000 s!"invalid cursor state: {message}"

/-! ## The table -/

structure GeneratedColumn where
  column : Column
  expr : Row → Except Failure Value

structure BaseTable extends Table where
  id : Nat
  primaryKey : List Text
  generated : List GeneratedColumn
  generated_mem : ∀ g ∈ generated, g.column ∈ columns
  /-- The identity columns that are GENERATED ALWAYS. -/
  alwaysIdentity : List Text
  /-- The CHECK constraints. -/
  verify : Row → Except Failure Unit

namespace BaseTable

variable (t : BaseTable)

def isGenerated (columnName : Text) : Bool :=
  t.generated.any fun g => g.column.name.subEntityName == columnName

def isGeneratedAlways (columnName : Text) : Bool :=
  t.alwaysIdentity.contains columnName || t.isGenerated columnName

/-- The row as it is read from the table, for the expressions of the generated columns. -/
def fullRow (row : Row) : Row :=
  ⟨[], 0, OrderedMap.setAll
    (t.columns.map fun col => (col.name.id, row.value col.name.subEntityName)) .empty⟩

def generate (timeZone : TimeZone) (full row : Row) (g : GeneratedColumn) :
    Except Failure Row := do
  let raw ← g.expr full
  let value ← cast timeZone raw g.column.typ
  if value.isNull && g.column.notNull then throw (sqlstate23502 g.column.name.subEntityName)
  pure { row with data := row.data.set g.column.name.subEntityName value }

def applyGenerated (timeZone : TimeZone) (row : Row) : Except Failure Row :=
  t.generated.foldlM (generate timeZone (t.fullRow row)) row

def keyPart (row : Row) (name : Text) : Except Failure Bytes := do
  let col ← t.column name
  pure (writeKeyValue (row.value name) col.typ.typ)

/-- The row with its ID, which is made from its PRIMARY KEY if there is one. -/
def withId (row : Row) : Except Failure Row :=
  if t.primaryKey = [] then
    if row.id = [] then .error (.error .sXX000 s!"row in {t.name.str} has no row ID") else .ok row
  else do
    let parts ← t.primaryKey.mapM (t.keyPart row)
    pure { row with id := parts.flatten }

def objectKey (row : Row) : Except Failure Bytes := do
  let row ← t.withId row
  pure (rowKeyPrefix t.id ++ row.id)

end BaseTable

/-! ## The stored rows -/

structure Stored where
  tid : Nat
  data : Bytes

/-- What the transaction sees of the rows of a table. -/
structure TableStorage where
  rows : OrderedMap Bytes Stored
  transactionId : Nat
  pageSize : PageSize
  /-- What other transactions have done to the row with a key, or to the table. -/
  concurrent : Bytes → Except Failure Unit

namespace TableStorage

variable (t : BaseTable) (s : TableStorage)

def readRows : Except Failure (List Row) :=
  s.rows.entries.mapM fun e => newRowFromBytes t.toTable e.2.data e.2.tid

/-- Adds the row with its ID to the B-tree. -/
def add (row : Row) : Except Failure TableStorage := do
  let data ← row.bytes t.toTable
  let key := rowKeyPrefix t.id ++ row.id
  let _ ← Btree.pieces s.pageSize (.new key s.transactionId 0 data)
  pure { s with rows := s.rows.set key ⟨s.transactionId, data⟩ }

def deleteRow (row : Row) : Except Failure TableStorage := do
  let key ← t.objectKey row
  s.concurrent key
  if s.rows.contains key then pure { s with rows := s.rows.erase key }
  else throw (sqlstateXX001 "DELETE: integrity issue, preventing panic")

def updateRow (row : Row) : Except Failure TableStorage := do
  let row ← t.withId row
  s.concurrent (rowKeyPrefix t.id ++ row.id)
  s.add t row

/-- Only a row with a PRIMARY KEY is written, since its ID has changed. -/
def writeRow (row : Row) : Except Failure TableStorage := do
  let row ← t.withId row
  let key := rowKeyPrefix t.id ++ row.id
  s.concurrent key
  if s.rows.contains key then
    throw (.error .s23505 s!"violates unique constraint: PRIMARY KEY on {t.name.str}")
  else s.add t row

end TableStorage

/-! ## The statement -/

/-- A SET clause, for values whose datetimes have at most six digits after the second. -/
structure SetAssignment extends SetClause where
  isDefault : Bool
  microseconds : ∀ row v, source row = .ok v → ∀ x, v.v = some (.time x) →
    x.t.nanosecond % 1000 = 0

structure UpdateStatementSearched where
  correlationName : Text := []
  set : List SetAssignment
  condition : Row → Except Failure Bool
  /-- The name of the cursor and the ID of its current row. -/
  currentOf : Option (Text × Bytes) := none

/-- What the statement did, before the referential actions of the changes. -/
structure Updated where
  storage : TableStorage
  changes : List (Row × Row)
  message : String
  noData : Bool

def checkSetOnce (seen : List Text) : List SetAssignment → Except Failure Unit
  | [] => .ok ()
  | clause :: set =>
      if clause.columnName ∈ seen then
        .error (sqlstate42601 s!"column {clause.columnName.str} is set more than once")
      else checkSetOnce (clause.columnName :: seen) set

def filterRows (condition : Row → Except Failure Bool) : List Row → Except Failure (List Row)
  | [] => .ok []
  | row :: rows => do
      let keep ← condition row
      let rest ← filterRows condition rows
      pure (if keep then row :: rest else rest)

def currentRows (rows : List Row) : Option (Text × Bytes) → Except Failure (List Row)
  | none => .ok rows
  | some (name, id) =>
      let current := rows.filter (·.id = id)
      if current = [] then
        .error (sqlstate24000 s!"the current row of cursor {name.str} has been deleted")
      else .ok current

namespace UpdateStatementSearched

variable (stmt : UpdateStatementSearched) (timeZone : TimeZone) (t : BaseTable)

def rowTableId : Text :=
  if stmt.correlationName ≠ [] then Identifier.id { subEntityName := stmt.correlationName }
  else t.name.id

/-- The keys of the row, which are those of the correlation if there is one. -/
def readRow (row : Row) : Row :=
  if stmt.correlationName ≠ [] then
    row.correlated (stmt.rowTableId t)
      (newNames (t.columns.map (·.name)) (t.columns.map (·.name.subEntityName)))
  else row

def matchedRows (s : TableStorage) : Except Failure (List Row) := do
  let rows ← s.readRows t
  let rows ← filterRows stmt.condition (rows.map (stmt.readRow t))
  currentRows rows stmt.currentOf

def checkGeneratedAlways : Except Failure Unit :=
  stmt.set.forM fun clause => do
    let _ ← t.column clause.columnName
    if t.isGeneratedAlways clause.columnName && !clause.isDefault then
      throw (sqlstate428C9 clause.columnName)

/-- The new row after one more clause, and whether it was modified. -/
def assign (row : Row) (new : Row × Bool) (clause : SetAssignment) :
    Except Failure (Row × Bool) := do
  let col ← t.column clause.columnName
  if t.isGenerated clause.columnName then pure new
  else do
    let raw ← clause.source row
    if col.notNull && raw.isNull then throw (sqlstate23502 clause.columnName)
    checkStoreAssignment raw col.typ
    let id := columnId (stmt.rowTableId t) clause.columnName
    let cmp ← Value.compare timeZone (row.value id) raw
    if cmp = .isEqual then pure new
    else do
      let value ← cast timeZone raw col.typ
      pure ({ new.1 with data := new.1.data.set id value }, true)

/-- The row before and after the statement, if it is modified. -/
def change (row : Row) : Except Failure (Option (Row × Row)) := do
  let (new, didModify) ← stmt.set.foldlM (stmt.assign timeZone t row) (row, false)
  if didModify then do
    let after ← t.applyGenerated timeZone new.forStorage
    t.verify after
    pure (some (row.forStorage, after))
  else pure none

/-- A row that gets a new key is moved. -/
def store (state : TableStorage × List Row) (change : Row × Row) :
    Except Failure (TableStorage × List Row) := do
  let before ← t.objectKey change.1
  let after ← t.objectKey change.2
  if before ≠ after then do
    let s ← state.1.deleteRow t change.1
    pure (s, state.2 ++ [change.2])
  else do
    let s ← state.1.updateRow t change.2
    pure (s, state.2)

/-! ## Checking the expressions without a row -/

def emptyContent : SqlType → Option Content
  | .bigint | .integer | .smallint => some (.int 0)
  | .doublePrecision | .real => some (.f64 (BinaryFloat.ofInt 0))
  | .boolean => some (.bool false)
  | .varchar | .character => some (.string [])
  | .numeric | .decimal => some (.numeric (Numeric.ofInt 0))
  | .date | .timeWithTimeZone | .timeWithoutTimeZone | .timestampWithTimeZone
  | .timestampWithoutTimeZone => none

/-- `new_empty_value` -/
def emptyValue (typ : DataType) : Value :=
  let base : DataType :=
    if typ.typ.isExactDecimal then (Numeric.ofInt 0).typ else { typ := typ.typ }
  let newTyp := { base with notNull := typ.notNull }
  match emptyContent typ.typ with
  | none => .null newTyp
  | some c => if h : c.Fits newTyp then ⟨newTyp, some c, by simpa using h⟩ else .null newTyp

def emptyRow : Row :=
  ⟨[], 0, OrderedMap.setAll (t.columns.map fun col =>
    (columnId (stmt.rowTableId t) col.name.subEntityName, emptyValue col.typ)) .empty⟩

def dryRun : Except Failure Unit :=
  stmt.set.forM fun clause => do
    let col ← t.column clause.columnName
    if t.isGenerated clause.columnName then pure ()
    else do
      let raw ← clause.source (stmt.emptyRow t)
      checkStoreAssignment raw col.typ
      let value ← cast timeZone raw col.typ
      if col.notNull && value.isNull then throw (sqlstate23502 clause.columnName)

/-! ## Executing the statement -/

def execute (s : TableStorage) : Except Failure Updated := do
  checkSetOnce [] stmt.set
  let rows ← stmt.matchedRows t s
  stmt.checkGeneratedAlways t
  let changes ← rows.mapM (stmt.change timeZone t)
  let (stored, moved) ← changes.reduceOption.foldlM (store t) (s, [])
  let written ← moved.foldlM (fun s row => s.writeRow t row) stored
  -- Otherwise an error in an expression would be missed if there are no rows.
  (if rows.isEmpty then stmt.dryRun timeZone t else pure () : Except Failure Unit)
  pure ⟨written, changes.reduceOption, s!"UPDATE {rows.length}", rows.isEmpty⟩

end UpdateStatementSearched

end Vsql.Rows
