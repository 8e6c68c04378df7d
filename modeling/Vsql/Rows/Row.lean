import Vsql.Foundation.OrderedMap
import Vsql.Lexer.Names
import Vsql.Page
import Vsql.Rows.Contents

/-!
# Rows

A row is a map from the ids of the columns to their values.  In the file it is the
values of the columns in their order, which are found by the names of the columns.
-/

namespace Vsql

/-- The name as it is used in memory, as opposed to `str`, which can be read again. -/
def Identifier.id (e : Identifier) : Text :=
  if e.customId ≠ [] then e.customId else ['.'].intercalate e.parts

namespace Rows

open Foundation
open Foundation.Reader

structure Column where
  name : Identifier
  typ : DataType
  notNull : Bool
  scale_le : typ.scale ≤ maxNumericPrecision := by decide

theorem Column.zero_scale_le : 0 ≤ maxNumericPrecision := Nat.zero_le _

def maxColumns : Nat := 1600

/-- What CREATE TABLE accepts: the columns have the name of the table, and different
names of their own. -/
structure Table where
  name : Identifier
  columns : List Column
  name_customId : name.customId = []
  name_subEntityName : name.subEntityName = []
  name_entityName : name.entityName ≠ []
  column_name : ∀ c ∈ columns,
    c.name = { name with subEntityName := c.name.subEntityName } ∧ c.name.subEntityName ≠ []
  nodup : (columns.map (·.name.subEntityName)).Nodup
  columns_le : columns.length ≤ maxColumns

theorem Table.entityName_ne : (['T'] : Text) ≠ [] := by decide

def Table.columnIds (t : Table) : List Text := t.columns.map (·.name.id)

structure Row where
  id : Bytes
  tid : Nat
  data : OrderedMap Text Value

/-- The zero value of the source, for a key that is not in a map. -/
def zeroValue : Value :=
  ⟨{ typ := .bigint }, some (.int 0), by simp [Content.Fits, SqlType.isInteger, SqlType.intBits]⟩

def Row.value (r : Row) (key : Text) : Value := (r.data.get? key).getD zeroValue

/-- The part of a key after its last period. -/
def lastPart (key : Text) : Text :=
  (key.splitOn '.').getLast (List.splitOn_ne_nil '.' key)

def Row.forStorage (r : Row) : Row :=
  { r with data := r.data.entries.foldl (fun data e => data.set (lastPart e.1) e.2) .empty }

/-! ## Writing a row -/

def maxRowSize : Nat := 2 ^ 31 - 1 - pageObjectPrefixLength - maxPageSize

/-- NULL is one of the values that a BOOLEAN is written as. -/
def Column.hasNullIndicator (col : Column) : Bool := !col.notNull && col.typ.typ != .boolean

def Column.isWritten (col : Column) (isNull : Bool) : Bool := !isNull || col.typ.typ == .boolean

def writeNullIndicator (col : Column) (v : Value) : Bytes :=
  if col.hasNullIndicator then writeBool v.isNull else []

def writeColumn (col : Column) (v : Value) : Bytes :=
  writeNullIndicator col v ++ if col.isWritten v.isNull then writeContent col.typ.typ v else []

def bytesOfColumns (r : Row) (limit : Nat) : List Column → Bytes → Except Failure Bytes
  | [], buf => .ok buf
  | col :: cols, buf =>
      let v := r.value col.name.subEntityName
      let length := (buf ++ writeNullIndicator col v).length + 4 + v.stringValue.length
      if col.isWritten v.isNull ∧ col.typ.typ.isString ∧ limit < length then
        .error (sqlstate54000 s!"row is bigger than the maximum of {limit} bytes")
      else bytesOfColumns r limit cols (buf ++ writeColumn col v)

def Row.bytesWithLimit (r : Row) (t : Table) (limit : Nat) : Except Failure Bytes :=
  bytesOfColumns r limit t.columns
    (writeU16 r.id.length ++ (r.id ++ writeU16 t.columns.length))

def Row.bytes (r : Row) (t : Table) : Except Failure Bytes := r.bytesWithLimit t maxRowSize

/-! ## Reading a row -/

def readNullIndicator (col : Column) : ByteReader Bool :=
  if col.hasNullIndicator then readBool else pure false

def valueOfContent (t : DataType) : Option Content → Except Failure Value
  | none => .ok (.null t)
  | some c => Value.ofContent t c

def readUnlessNull (col : Column) (isNull : Bool) : ByteReader Value :=
  if col.isWritten isNull then do
    let c ← readContent col.typ
    StateT.lift (valueOfContent col.typ c)
  else pure (.null col.typ)

def readColumn (col : Column) : ByteReader Value := do
  let isNull ← readNullIndicator col
  readUnlessNull col isNull

/-- A column that did not exist when the row was written is NULL. -/
def readColumns (columnCount : Nat) : List Column → Nat → OrderedMap Text Value →
    ByteReader (OrderedMap Text Value)
  | [], _, row => pure row
  | col :: cols, i, row =>
      if columnCount ≤ i then
        readColumns columnCount cols (i + 1) (row.set col.name.id (.null col.typ))
      else do
        let v ← readColumn col
        readColumns columnCount cols (i + 1) (row.set col.name.id v)

def readRow (t : Table) (tid : Nat) : ByteReader Row := do
  let idLength ← readNat 2
  let id ← readU8s idLength
  let columnCount ← readNat 2
  let data ← readColumns columnCount t.columns 0 .empty
  pure ⟨id, tid, data⟩

def newRowFromBytes (t : Table) (data : Bytes) (tid : Nat) : Except Failure Row := do
  let (row, _) ← (readRow t tid).run data
  pure row

/-! ## A column is read back -/

/-- The value can be in the column. -/
structure Column.Keeps (col : Column) (v : Value) : Prop where
  stored : v.isNull = false → v.StoredAs col.typ
  notNull : col.notNull → v.isNull = false

def readBack (col : Column) (v : Value) : Value :=
  match v.v with
  | none => .null col.typ
  | some c =>
      if h : (storedContent col.typ c).Fits col.typ then ⟨col.typ, some _, by simpa using h⟩
      else .null col.typ

variable {col : Column} {v : Value}

theorem Column.Keeps.storedAs {c : Content} (h : col.Keeps v) (hv : v.v = some c) :
    v.StoredAs col.typ :=
  h.stored (by simp [Value.isNull, hv])

theorem Column.Keeps.fits {c : Content} (h : col.Keeps v) (hv : v.v = some c) :
    (storedContent col.typ c).Fits col.typ := by
  have hfits := v.fits c hv
  have htyp := (h.storedAs hv).typ
  cases c with
  | bool x =>
      simp only [storedContent, Content.Fits] at hfits ⊢
      rwa [← htyp]
  | int x =>
      simp only [storedContent, Content.Fits] at hfits ⊢
      rwa [← htyp]
  | f64 x =>
      simp only [storedContent, Content.Fits, htyp] at hfits ⊢
      obtain ht | ⟨ht, hreal⟩ := hfits
      · exact .inl ht
      · rw [if_pos ht]
        refine .inr ⟨ht, ?_⟩
        obtain hnan | hreal := hreal
        · left
          have hconvert : (x.convert : F32) = BinaryFloat.nan binary32 := by
            simp [BinaryFloat.convert, hnan]
          rw [asReal, hconvert]
          decide
        · exact .inr (by rw [hreal, hreal])
  | string x =>
      simp only [storedContent, Content.Fits] at hfits ⊢
      rwa [← htyp]
  | time x =>
      simp only [storedContent, Content.Fits] at hfits ⊢
      exact ⟨htyp ▸ hfits.1, rfl⟩
  | numeric x =>
      have hnumeric : x.Fits v.typ := hfits
      have hexact : col.typ.typ.isExactDecimal := htyp ▸ hnumeric.typ
      have hscale := (h.storedAs hv).scale hexact
      obtain ⟨-, hbound⟩ := hnumeric.scale
      have hdenominator := hnumeric.denominator
      rw [hscale] at hbound hdenominator
      simp only [storedContent, Content.Fits, storedNumeric]
      split
      · refine ⟨hexact, ⟨rfl, hbound⟩, ⟨by positivity, ?_⟩, ?_⟩
        · exact pow_lt_pow_right₀ (by omega) (by omega)
        · simp
      · exact ⟨hexact, ⟨rfl, hbound⟩, hdenominator, hnumeric.numerator⟩

theorem readBack_v (h : col.Keeps v) : (readBack col v).v = v.v.map (storedContent col.typ) := by
  unfold readBack
  cases hv : v.v with
  | none => simp [Value.null]
  | some c => simp [h.fits hv]

theorem readBack_typ : (readBack col v).typ = col.typ := by
  unfold readBack
  split
  · rfl
  · split <;> rfl

theorem isWritten_of_content (col : Column) {c : Content} (hv : v.v = some c) :
    col.isWritten v.isNull = true := by
  simp [Column.isWritten, Value.isNull, hv]

/-- The NULL indicator, which is all that is read of a NULL. -/
def Column.indicates (col : Column) (v : Value) : Bool := v.isNull && col.typ.typ != .boolean

def writeUnlessNull (col : Column) (v : Value) : Bytes :=
  if col.isWritten v.isNull then writeContent col.typ.typ v else []

theorem reads_nullIndicator (h : col.notNull → v.isNull = false) :
    Reads (readNullIndicator col) (writeNullIndicator col v) (col.indicates v) := by
  unfold readNullIndicator writeNullIndicator
  split
  · next hindicator =>
      simp only [Column.hasNullIndicator, Bool.and_eq_true] at hindicator
      rw [Column.indicates, hindicator.2, Bool.and_true]
      exact reads_readBool v.isNull
  · next hindicator =>
      have hfalse : col.indicates v = false := by
        simp only [Column.hasNullIndicator, Bool.and_eq_true, Bool.not_eq_true', bne_iff_ne, ne_eq,
          not_and_or, Bool.not_eq_false, Decidable.not_not] at hindicator
        obtain hcol | hboolean := hindicator
        · simp [Column.indicates, h hcol]
        · simp [Column.indicates, hboolean]
      rw [hfalse]
      exact reads_pure false

theorem reads_readUnlessNull (h : col.Keeps v) (hlength : v.stringValue.length < 2 ^ 31) :
    Reads (readUnlessNull col (col.indicates v)) (writeUnlessNull col v) (readBack col v) := by
  unfold readUnlessNull writeUnlessNull
  cases hv : v.v with
  | none =>
      have hnull : v.isNull = true := by simp [Value.isNull, hv]
      have hback : readBack col v = .null col.typ := by simp [readBack, hv]
      rw [hback]
      by_cases hboolean : col.typ.typ = .boolean
      · -- No indicator, and a content that is NULL.
        have hread : Reads (readContent col.typ) [0] none := by
          simp only [readContent, hboolean]
          exact (reads_readU8 0).bind_nil (reads_pure _)
        simp only [Column.indicates, Column.isWritten, hboolean, writeContent, hv]
        simp only [beq_self_eq_true, Bool.or_true, if_true]
        refine hread.bind_nil ?_
        exact reads_lift rfl
      · simp only [Column.indicates, Column.isWritten, hnull]
        simpa [hboolean] using reads_pure _
  | some c =>
      have hnull : v.isNull = false := by simp [Value.isNull, hv]
      have hcontent := reads_readContent hv (h.storedAs hv).typ hlength
      simp only [Column.indicates, Column.isWritten, hnull]
      simp only [Bool.not_false, Bool.true_or, Bool.false_and, if_true]
      refine hcontent.bind_nil ?_
      refine reads_lift ?_
      simp [valueOfContent, Value.ofContent, readBack, hv, h.fits hv]

theorem reads_readColumn (h : col.Keeps v) (hlength : v.stringValue.length < 2 ^ 31) :
    Reads (readColumn col) (writeColumn col v) (readBack col v) := by
  refine (reads_nullIndicator h.notNull).bind ?_
  exact reads_readUnlessNull h hlength

/-! ## A row is read back -/

structure Row.StoredIn (r : Row) (t : Table) : Prop where
  id : r.id.length < 2 ^ 16
  keeps : ∀ col ∈ t.columns, col.Keeps (r.value col.name.subEntityName)

/-- The bytes of the columns when the row is not too big. -/
def bytesOf (r : Row) (cols : List Column) : Bytes :=
  cols.flatMap fun col => writeColumn col (r.value col.name.subEntityName)

theorem stringValue_of_not_isString {v : Value} (h : v.typ.typ.isString = false) :
    v.stringValue = [] := by
  unfold Value.stringValue
  split
  · next x hx =>
      have hfits : v.typ.typ.isString := v.fits _ hx
      simp [h] at hfits
  · rfl

theorem bytesOfColumns_eq_ok {r : Row} {limit : Nat} {cols : List Column} {buf data : Bytes}
    (h : bytesOfColumns r limit cols buf = .ok data) :
    data = buf ++ bytesOf r cols ∧
      ∀ col ∈ cols, col.Keeps (r.value col.name.subEntityName) →
        (r.value col.name.subEntityName).stringValue.length ≤ limit := by
  induction cols generalizing buf with
  | nil =>
      simp only [bytesOfColumns, Except.ok.injEq] at h
      simp [bytesOf, h]
  | cons col cols ih =>
      simp only [bytesOfColumns] at h
      split at h
      · cases h
      · next hsmall =>
          obtain ⟨hdata, hstrings⟩ := ih h
          refine ⟨by simp [hdata, bytesOf], ?_⟩
          rintro c hc hkeeps
          obtain rfl | hc := List.mem_cons.mp hc
          · cases hv : (r.value c.name.subEntityName).v with
            | none => simp [Value.stringValue, hv]
            | some content =>
                by_cases hstring : c.typ.typ.isString
                · have hle := not_and.mp (not_and.mp hsmall (isWritten_of_content _ hv)) hstring
                  simp only [not_lt] at hle
                  omega
                · have htyp := (hkeeps.storedAs hv).typ
                  rw [stringValue_of_not_isString (by simpa [htyp] using hstring)]
                  simp
          · exact hstrings c hc hkeeps

/-- A row is written when its columns are small enough. -/
theorem bytesOfColumns_of_le {r : Row} {limit : Nat} {cols : List Column} {buf : Bytes}
    (h : ∀ col ∈ cols, (r.value col.name.subEntityName).stringValue.length ≤ 16 ∧
      (writeColumn col (r.value col.name.subEntityName)).length ≤ 2 ^ 16)
    (hlimit : buf.length + 2 ^ 16 * cols.length ≤ limit) :
    bytesOfColumns r limit cols buf = .ok (buf ++ bytesOf r cols) := by
  induction cols generalizing buf with
  | nil => simp [bytesOfColumns, bytesOf]
  | cons col cols ih =>
      obtain ⟨hstring, hcolumn⟩ := h col (by simp)
      have hindicator : (writeNullIndicator col (r.value col.name.subEntityName)).length ≤ 1 := by
        unfold writeNullIndicator writeBool
        split <;> simp
      have hlimit' : (buf ++ writeColumn col (r.value col.name.subEntityName)).length +
          2 ^ 16 * cols.length ≤ limit := by
        simp only [List.length_append, List.length_cons] at *
        omega
      have hnext := ih (fun c hc => h c (by simp [hc])) hlimit'
      simp only [bytesOfColumns]
      rw [if_neg, hnext]
      · simp [bytesOf]
      · simp only [List.length_append, List.length_cons] at *
        omega

def readBackColumns (r : Row) (cols : List Column) (row : OrderedMap Text Value) :
    OrderedMap Text Value :=
  cols.foldl (fun row col =>
    row.set col.name.id (readBack col (r.value col.name.subEntityName))) row

theorem reads_readColumns {r : Row} {columnCount : Nat} {cols : List Column} {i : Nat}
    {row : OrderedMap Text Value} (hcount : i + cols.length ≤ columnCount)
    (h : ∀ col ∈ cols, col.Keeps (r.value col.name.subEntityName) ∧
      (r.value col.name.subEntityName).stringValue.length < 2 ^ 31) :
    Reads (readColumns columnCount cols i row) (bytesOf r cols) (readBackColumns r cols row) := by
  induction cols generalizing i row with
  | nil => exact reads_pure row
  | cons col cols ih =>
      rw [List.length_cons] at hcount
      obtain ⟨hkeeps, hlength⟩ := h col (by simp)
      unfold readColumns
      rw [if_neg (by omega)]
      refine (reads_readColumn hkeeps hlength).bind ?_
      exact ih (by omega) fun c hc => h c (by simp [hc])

/-- What a stored row is read as. -/
def Row.readAs (r : Row) (t : Table) (tid : Nat) : Row :=
  ⟨r.id, tid, readBackColumns r t.columns .empty⟩

theorem reads_readRow {r : Row} {t : Table} {data : Bytes} (tid : Nat) (h : r.StoredIn t)
    (hbytes : r.bytes t = .ok data) : Reads (readRow t tid) data (r.readAs t tid) := by
  obtain ⟨hdata, hstrings⟩ := bytesOfColumns_eq_ok hbytes
  have hcolumnsLe := t.columns_le
  simp only [maxColumns] at hcolumnsLe
  have hcolumns : Reads (readColumns t.columns.length t.columns 0 .empty) (bytesOf r t.columns)
      (readBackColumns r t.columns .empty) := by
    refine reads_readColumns (by omega) fun col hcol => ⟨h.keeps col hcol, ?_⟩
    have hle := hstrings col hcol (h.keeps col hcol)
    simp only [maxRowSize, pageObjectPrefixLength, maxPageSize] at hle
    omega
  have hid := h.id
  rw [hdata, List.append_assoc, List.append_assoc]
  refine (reads_readNat (by omega)).bind ?_
  refine (reads_readU8s rfl).bind ?_
  refine (reads_readNat (by omega)).bind ?_
  refine hcolumns.bind_nil ?_
  exact reads_pure _

/-- The row codec: what was written is read back. -/
theorem newRowFromBytes_bytes {r : Row} {t : Table} {data : Bytes} (tid : Nat)
    (h : r.StoredIn t) (hbytes : r.bytes t = .ok data) :
    newRowFromBytes t data tid = .ok (r.readAs t tid) := by
  have hread := (reads_readRow tid h hbytes).run
  simp only [newRowFromBytes, StateT.run, hread]
  rfl

/-! ## A value that was read back is written in the same bytes -/

theorem isNull_readBack (h : col.Keeps v) : (readBack col v).isNull = v.isNull := by
  simp [Value.isNull, readBack_v h]

theorem Column.Keeps.readBack (h : col.Keeps v) : col.Keeps (readBack col v) where
  stored := fun hnull => ⟨hnull, by rw [readBack_typ], fun _ => by rw [readBack_typ]⟩
  notNull := fun hcol => by rw [isNull_readBack h, h.notNull hcol]

theorem timeBytes_storedTime {x : Time} (h : x.typ.typ = col.typ.typ) :
    timeBytes (storedTime col.typ x) = timeBytes x := by
  have hi64 : (storedTime col.typ x).i64 = x.i64 := by
    simp only [Time.i64, storedTime, DateTime.i64, DateTime.dateI64, DateTime.timeI64]
    omega
  unfold timeBytes
  rw [hi64]
  simp only [storedTime, h]
  split
  · rfl
  · rfl

theorem numericBytes_storedNumeric (t : DataType) (x : Numeric) :
    numericBytes (storedNumeric t x) = numericBytes x := by
  unfold storedNumeric
  split
  · next hzero =>
      have hback : (⟨t, 0, 10 ^ t.scale⟩ : Numeric).isZero = true := rfl
      rw [numericBytes, numericBytes, if_pos hzero, if_pos hback]
  · rfl

theorem convert_asReal (x : F64) (h : x.isNaN ∨ asReal x = x) :
    ((asReal x).convert : F32) = x.convert := by
  obtain hnan | hreal := h
  · have hconvert : (x.convert : F32) = BinaryFloat.nan binary32 := by
      simp [BinaryFloat.convert, hnan]
    rw [asReal, hconvert]
    decide
  · rw [hreal]

theorem writeColumn_readBack (h : col.Keeps v) :
    writeColumn col (readBack col v) = writeColumn col v := by
  have hback := readBack_v h
  unfold writeColumn writeNullIndicator
  rw [isNull_readBack h]
  suffices hcontent : writeContent col.typ.typ (readBack col v) = writeContent col.typ.typ v by
    rw [hcontent]
  cases hv : v.v with
  | none =>
      rw [hv, Option.map_none] at hback
      simp only [writeContent, hback, hv, Value.intValue, Value.f64Value, Value.stringValue,
        Value.timeValue?, Value.numericValue]
  | some c =>
      have hfits := v.fits c hv
      rw [hv, Option.map_some] at hback
      cases c with
      | f64 x =>
          simp only [storedContent] at hback
          simp only [Content.Fits, (h.storedAs hv).typ] at hfits
          obtain ht | ⟨ht, hreal⟩ := hfits
          · simp [writeContent, ht, hback, hv, Value.f64Value]
          · simp [writeContent, ht, hback, hv, Value.f64Value, convert_asReal x hreal]
      | time x =>
          have hx : x.typ.typ = col.typ.typ := (h.storedAs hv).typ ▸ hfits.2
          simp only [storedContent] at hback
          simp only [writeContent, hback, hv, Value.intValue, Value.f64Value, Value.stringValue,
            Value.timeValue?, Value.numericValue, timeBytes_storedTime hx]
      | numeric x =>
          simp only [storedContent] at hback
          simp only [writeContent, hback, hv, Value.intValue, Value.f64Value, Value.stringValue,
            Value.timeValue?, Value.numericValue, numericBytes_storedNumeric]
      | bool x | int x | string x =>
          simp only [storedContent] at hback
          simp only [writeContent, hback, hv, Value.intValue, Value.f64Value, Value.stringValue,
            Value.timeValue?, Value.numericValue]

theorem stringValue_readBack (h : col.Keeps v) :
    (readBack col v).stringValue = v.stringValue := by
  have hback := readBack_v h
  cases hv : v.v with
  | none => simp [Value.stringValue, hback, hv]
  | some c => cases c <;> simp [Value.stringValue, hback, hv, storedContent]

end Rows

end Vsql
