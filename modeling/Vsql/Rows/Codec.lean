import Vsql.Rows.Names
import Vsql.Values.KeyOrder

/-!
# The row codec

A row that was written is read back with the same values, also by a table that has more
columns now.  If only some of the columns are needed the values of the others are skipped,
which leaves what is read of the needed columns as it is.
-/

namespace Vsql.Rows

open Foundation
open Foundation.Reader

/-! ## Skipping a value -/

/-- `buf.at += n`, which is not checked until something is read.  The lengths in a row are
not negative. -/
def skip (n : Int) : ByteReader Unit :=
  if n < 0 then throw pastEnd else fun input => .ok ((), input.drop n.toNat)

def skipValue (typ : SqlType) : ByteReader Unit :=
  match typ with
  | .boolean => skip 1
  | .smallint => skip 2
  | .integer | .real => skip 4
  | .bigint | .doublePrecision | .date | .timeWithoutTimeZone | .timestampWithoutTimeZone => skip 8
  | .timeWithTimeZone | .timestampWithTimeZone => skip 10
  | .varchar | .character => do
      let length ← readInt 4
      skip length
  | .numeric | .decimal => do
      let length ← readInt 2
      skip length

theorem reads_skip {written : Bytes} {n : Int} (h : (written.length : Int) = n) :
    Reads (skip n) written () := by
  intro rest
  subst h
  have hnot : ¬((written.length : Int) < 0) := by omega
  simp [skip, hnot]

@[simp] theorem length_writeInt (width : Nat) (x : Int) : (writeInt width x).length = width := by
  simp [writeInt]

variable {col : Column} {v : Value}

theorem reads_skipValue {t : DataType} (hnull : v.isNull = false) (htyp : v.typ.typ = t.typ)
    (hlength : v.stringValue.length < 2 ^ 31) :
    Reads (skipValue t.typ) (writeContent t.typ v) () := by
  unfold skipValue writeContent
  cases ht : t.typ
  case boolean =>
    refine reads_skip ?_
    dsimp only
    split <;> rfl
  case bigint | integer | smallint | doublePrecision | real => exact reads_skip (by simp)
  case varchar | character =>
    refine Reads.bind (reads_readInt (x := v.stringValue.length) (by omega) (by omega)) ?_
    exact reads_skip rfl
  case numeric | decimal =>
    have hexact : v.typ.typ.isExactDecimal := by simp [htyp, ht, SqlType.isExactDecimal]
    have hshort := (shortNumeric_of_fits (Value.numericValue_fits hnull hexact)).length_numericBytes
    refine Reads.bind
      (reads_readInt (x := (numericBytes v.numericValue).length) (by omega) (by omega)) ?_
    exact reads_skip rfl
  case date | timeWithTimeZone | timeWithoutTimeZone | timestampWithTimeZone |
      timestampWithoutTimeZone =>
    have hdatetime : v.typ.typ.isDatetime := by simp [htyp, ht, SqlType.isDatetime]
    obtain ⟨x, hx, hxtyp⟩ := Value.exists_time hnull hdatetime
    simp only [hx]
    refine reads_skip ?_
    rw [length_timeBytes, hxtyp, htyp, ht]
    rfl

/-! ## Reading the columns that are needed -/

/-- `needed.len == 0 || needed[i]` -/
def isNeeded (needed : List Bool) (i : Nat) : Except Failure Bool :=
  if needed = [] then .ok true
  else
    match needed[i]? with
    | some b => .ok b
    | none => .error (.panic "array.get: index out of range")

def skipUnlessNull (col : Column) (isNull : Bool) : ByteReader Unit :=
  if col.isWritten isNull then skipValue col.typ.typ else pure ()

def readNeeded (col : Column) (isNull needed : Bool) (row : OrderedMap Text Value) :
    ByteReader (OrderedMap Text Value) :=
  if needed then do
    let v ← readUnlessNull col isNull
    pure (row.set col.name.id v)
  else do
    skipUnlessNull col isNull
    pure row

def readColumnsNeeded (needed : List Bool) (columnCount : Nat) : List Column → Nat →
    OrderedMap Text Value → ByteReader (OrderedMap Text Value)
  | [], _, row => pure row
  | col :: cols, i, row =>
      if columnCount ≤ i then
        readColumnsNeeded needed columnCount cols (i + 1) (row.set col.name.id (.null col.typ))
      else do
        let isNull ← readNullIndicator col
        let isNeeded ← StateT.lift (isNeeded needed i)
        let row ← readNeeded col isNull isNeeded row
        readColumnsNeeded needed columnCount cols (i + 1) row

def readRowNeeded (t : Table) (needed : List Bool) (tid : Nat) : ByteReader Row := do
  let idLength ← readNat 2
  let id ← readU8s idLength
  let columnCount ← readNat 2
  let data ← readColumnsNeeded needed columnCount t.columns 0 .empty
  pure ⟨id, tid, data⟩

def newRowFromBytesNeeded (t : Table) (needed : List Bool) (data : Bytes) (tid : Nat) :
    Except Failure Row := do
  let (row, _) ← (readRowNeeded t needed tid).run data
  pure row

theorem readColumnsNeeded_nil (columnCount : Nat) (cols : List Column) (i : Nat)
    (row : OrderedMap Text Value) :
    readColumnsNeeded [] columnCount cols i row = readColumns columnCount cols i row := by
  induction cols generalizing i row with
  | nil => rfl
  | cons col cols ih =>
      unfold readColumnsNeeded readColumns
      split
      · exact ih (i + 1) _
      · simp only [isNeeded, if_true, readColumn, bind_assoc]
        refine bind_congr fun isNull => ?_
        change (pure true >>= fun isNeeded => _) = _
        simp only [pure_bind, readNeeded, if_true, bind_assoc, ih]

/-- All of the columns are read if none are selected. -/
theorem newRowFromBytesNeeded_nil (t : Table) (data : Bytes) (tid : Nat) :
    newRowFromBytesNeeded t [] data tid = newRowFromBytes t data tid := by
  simp only [newRowFromBytesNeeded, newRowFromBytes, readRowNeeded, readRow,
    readColumnsNeeded_nil]

/-! ## What is read of a row -/

theorem reads_skipUnlessNull (h : col.Keeps v) (hlength : v.stringValue.length < 2 ^ 31) :
    Reads (skipUnlessNull col (col.indicates v)) (writeUnlessNull col v) () := by
  unfold skipUnlessNull writeUnlessNull
  cases hv : v.v with
  | none =>
      have hnull : v.isNull = true := by simp [Value.isNull, hv]
      by_cases hboolean : col.typ.typ = .boolean
      · simp only [Column.indicates, Column.isWritten, hboolean, writeContent, hv]
        simp only [beq_self_eq_true, Bool.or_true, if_true]
        exact reads_skip rfl
      · simp only [Column.indicates, Column.isWritten, hnull]
        simpa [hboolean] using reads_pure _
  | some c =>
      have hnull : v.isNull = false := by simp [Value.isNull, hv]
      simp only [Column.indicates, Column.isWritten, hnull]
      simp only [Bool.not_false, Bool.true_or, Bool.false_and, if_true]
      exact reads_skipValue hnull (h.storedAs hv).typ hlength

theorem reads_readNeeded (h : col.Keeps v) (hlength : v.stringValue.length < 2 ^ 31)
    (needed : Bool) (row : OrderedMap Text Value) :
    Reads (readNeeded col (col.indicates v) needed row) (writeUnlessNull col v)
      (if needed then row.set col.name.id (readBack col v) else row) := by
  cases needed with
  | true => exact (reads_readUnlessNull h hlength).bind_pure (f := row.set col.name.id)
  | false => exact (reads_skipUnlessNull h hlength).bind_pure (f := fun _ => row)

/-- The columns of a row that had `columnCount` of them when it was written. -/
def decoded (r : Row) (needed : Nat → Bool) (columnCount : Nat) : List Column → Nat →
    OrderedMap Text Value → OrderedMap Text Value
  | [], _, row => row
  | col :: cols, i, row =>
      decoded r needed columnCount cols (i + 1) <|
        if columnCount ≤ i then row.set col.name.id (.null col.typ)
        else if needed i then row.set col.name.id (readBack col (r.value col.name.subEntityName))
        else row

/-- The columns that a list selects, which are all of them if it is empty. -/
def selects (needed : List Bool) (i : Nat) : Bool := needed = [] || needed.getD i false

theorem isNeeded_eq {needed : List Bool} {i : Nat} (h : needed = [] ∨ i < needed.length) :
    isNeeded needed i = .ok (selects needed i) := by
  unfold isNeeded selects
  by_cases hnil : needed = []
  · simp [hnil]
  · have hlt := h.resolve_left hnil
    simp [hnil, hlt]

theorem reads_readColumnsNeeded {r : Row} {needed : List Bool} {columnCount : Nat}
    {cols : List Column} {i : Nat} {row : OrderedMap Text Value}
    (hneeded : needed = [] ∨ i + cols.length ≤ needed.length)
    (h : ∀ col ∈ cols.take (columnCount - i), col.Keeps (r.value col.name.subEntityName) ∧
      (r.value col.name.subEntityName).stringValue.length < 2 ^ 31) :
    Reads (readColumnsNeeded needed columnCount cols i row)
      (bytesOf r (cols.take (columnCount - i)))
      (decoded r (selects needed) columnCount cols i row) := by
  induction cols generalizing i row with
  | nil =>
      rw [List.take_nil]
      exact reads_pure row
  | cons col cols ih =>
      rw [List.length_cons] at hneeded
      have hneeded' : needed = [] ∨ i + 1 + cols.length ≤ needed.length :=
        hneeded.imp_right (by omega)
      unfold readColumnsNeeded decoded
      by_cases hadded : columnCount ≤ i
      · have hnone : columnCount - i = 0 := by omega
        have hnone' : columnCount - (i + 1) = 0 := by omega
        rw [if_pos hadded, if_pos hadded, hnone]
        have hrest : ∀ row, Reads (readColumnsNeeded needed columnCount cols (i + 1) row)
            (bytesOf r (cols.take (columnCount - (i + 1))))
            (decoded r (selects needed) columnCount cols (i + 1) row) :=
          fun row => ih hneeded' (by simp [hnone'])
        rw [hnone'] at hrest
        exact hrest _
      · have hsucc : columnCount - i = columnCount - (i + 1) + 1 := by omega
        rw [hsucc, List.take_succ_cons] at h ⊢
        rw [if_neg hadded, if_neg hadded]
        obtain ⟨hkeeps, hlength⟩ := h col (by simp)
        have hbytes : bytesOf r (col :: cols.take (columnCount - (i + 1))) =
            writeNullIndicator col (r.value col.name.subEntityName) ++
              (writeUnlessNull col (r.value col.name.subEntityName) ++
                bytesOf r (cols.take (columnCount - (i + 1)))) := by
          simp [bytesOf, writeColumn, writeUnlessNull]
        rw [hbytes]
        refine (reads_nullIndicator hkeeps.notNull).bind ?_
        have hselects : isNeeded needed i = .ok (selects needed i) :=
          isNeeded_eq (hneeded.imp_right (by omega))
        refine (reads_lift hselects).nil_bind ?_
        refine (reads_readNeeded hkeeps hlength _ row).bind ?_
        exact ih hneeded' fun c hc => h c (by simp [hc])

section

variable {r : Row} {needed : Nat → Bool} {columnCount : Nat}

theorem get?_decoded_of_not_mem {cols : List Column} {i : Nat} {row : OrderedMap Text Value}
    {k : Text} (hk : k ∉ cols.map (·.name.id)) :
    (decoded r needed columnCount cols i row).get? k = row.get? k := by
  induction cols generalizing i row with
  | nil => rfl
  | cons col cols ih =>
      simp only [List.map_cons, List.mem_cons, not_or] at hk
      rw [decoded, ih hk.2]
      split
      · rw [OrderedMap.get?_set, if_neg hk.1]
      · split
        · rw [OrderedMap.get?_set, if_neg hk.1]
        · rfl

/-- The value of a column, which is NULL if it was added after the row was written. -/
def decodedValue (r : Row) (columnCount : Nat) (col : Column) (i : Nat) : Value :=
  if columnCount ≤ i then .null col.typ else readBack col (r.value col.name.subEntityName)

theorem get?_decoded {cols : List Column} {i j : Nat} {row : OrderedMap Text Value}
    (hnodup : (cols.map (·.name.id)).Nodup) {col : Column} (hj : cols[j]? = some col)
    (hneeded : needed (i + j)) :
    (decoded r needed columnCount cols i row).get? col.name.id =
      some (decodedValue r columnCount col (i + j)) := by
  induction cols generalizing i j row with
  | nil => simp at hj
  | cons c cols ih =>
      simp only [List.map_cons, List.nodup_cons] at hnodup
      rw [decoded]
      cases j with
      | zero =>
          simp only [List.getElem?_cons_zero, Option.some.injEq] at hj
          subst hj
          rw [Nat.add_zero] at hneeded ⊢
          rw [get?_decoded_of_not_mem hnodup.1, decodedValue, if_pos hneeded]
          by_cases hadded : columnCount ≤ i <;> simp [hadded]
      | succ j =>
          rw [List.getElem?_cons_succ] at hj
          have hsucc : i + 1 + j = i + (j + 1) := by omega
          rw [← hsucc] at hneeded ⊢
          exact ih hnodup.2 hj hneeded

end

/-! ## The codec -/

/-- One content stands for the same as another in a column of the type: a zone only counts if
the type has one, and an exact number is the same with any denominator. -/
def Content.Same (t : DataType) : Content → Content → Prop
  | .bool x, .bool y => x = y
  | .int x, .int y => x = y
  | .f64 x, .f64 y => x = y ∨ x.isNaN ∧ y.isNaN
  | .string x, .string y => x = y
  | .time x, .time y => x.t = y.t ∧ (t.typ.hasTimeZone → x.timeZone = y.timeZone)
  | .numeric x, .numeric y => x.numerator * y.denominator = y.numerator * x.denominator
  | _, _ => False

/-- The value `w` of the type is `v`, and not a NULL if that is not one. -/
structure SameValue (t : DataType) (w v : Value) : Prop where
  typ : w.typ = t
  isNull : w.isNull = v.isNull
  content : ∀ c ∈ w.v, ∀ d ∈ v.v, Content.Same t c d

/-- A datetime has at most six digits after the second. -/
structure Column.Has (col : Column) (v : Value) : Prop extends col.Keeps v where
  microseconds : ∀ x, v.v = some (.time x) → x.t.nanosecond % 1000 = 0

theorem isNaN_asReal {x : F64} (h : x.isNaN) : (asReal x).isNaN := by
  have hconvert : (x.convert : F32) = BinaryFloat.nan binary32 := by
    simp [BinaryFloat.convert, h]
  rw [asReal, hconvert]
  decide

theorem same_storedContent {c : Content} (h : col.Has v) (hv : v.v = some c) :
    Content.Same col.typ (storedContent col.typ c) c := by
  have hfits := v.fits c hv
  have hstored := h.storedAs hv
  cases c with
  | bool x | int x | string x => rfl
  | f64 x =>
      simp only [Content.Fits, hstored.typ] at hfits
      simp only [storedContent, Content.Same]
      split
      · next hreal =>
          obtain hdouble | ⟨-, hnan | hx⟩ := hfits
          · simp [hreal] at hdouble
          · exact .inr ⟨isNaN_asReal hnan, hnan⟩
          · exact .inl hx
      · exact .inl rfl
  | time x =>
      refine ⟨?_, fun hzone => by simp [storedTime, hzone]⟩
      have hmicros := h.microseconds x hv
      have hnano : x.t.nanosecond / 1000 * 1000 = x.t.nanosecond := by omega
      simp only [storedTime, hnano]
  | numeric x =>
      simp only [storedContent, Content.Same, storedNumeric]
      split
      · next hzero =>
          have hnumerator : x.numerator = 0 := by simpa [Numeric.isZero] using hzero
          simp [hnumerator]
      · rfl

theorem sameValue_readBack (h : col.Has v) : SameValue col.typ (readBack col v) v where
  typ := readBack_typ
  isNull := isNull_readBack h.toKeeps
  content := by
    intro c hc d hd
    rw [readBack_v h.toKeeps, hd, Option.map_some, Option.mem_some_iff] at hc
    subst hc
    exact same_storedContent h hd

theorem reads_readRowNeeded {r : Row} {written t : Table} {data : Bytes} {needed : List Bool}
    (tid : Nat) (hadded : written.columns <+: t.columns) (h : r.StoredIn written)
    (hbytes : r.bytes written = .ok data)
    (hneeded : needed = [] ∨ needed.length = t.columns.length) :
    Reads (readRowNeeded t needed tid) data
      ⟨r.id, tid, decoded r (selects needed) written.columns.length t.columns 0 .empty⟩ := by
  obtain ⟨hdata, hstrings⟩ := bytesOfColumns_eq_ok hbytes
  have hcolumnsLe := written.columns_le
  simp only [maxColumns] at hcolumnsLe
  have htake : t.columns.take (written.columns.length - 0) = written.columns :=
    (List.prefix_iff_eq_take.1 hadded).symm
  have hcolumns : Reads (readColumnsNeeded needed written.columns.length t.columns 0 .empty)
      (bytesOf r (t.columns.take (written.columns.length - 0)))
      (decoded r (selects needed) written.columns.length t.columns 0 .empty) := by
    refine reads_readColumnsNeeded (hneeded.imp_right (by omega)) ?_
    rw [htake]
    refine fun col hcol => ⟨h.keeps col hcol, ?_⟩
    have hle := hstrings col hcol (h.keeps col hcol)
    simp only [maxRowSize, pageObjectPrefixLength, maxPageSize] at hle
    omega
  rw [htake] at hcolumns
  have hid := h.id
  rw [hdata, List.append_assoc, List.append_assoc]
  refine (reads_readNat (by omega)).bind ?_
  refine (reads_readU8s rfl).bind ?_
  refine (reads_readNat (by omega)).bind ?_
  refine hcolumns.bind_nil ?_
  exact reads_pure _

theorem newRowFromBytesNeeded_eq {r : Row} {written t : Table} {data : Bytes}
    (needed : List Bool) (tid : Nat) (hadded : written.columns <+: t.columns)
    (h : r.StoredIn written) (hbytes : r.bytes written = .ok data)
    (hneeded : needed = [] ∨ needed.length = t.columns.length) :
    newRowFromBytesNeeded t needed data tid =
      .ok ⟨r.id, tid, decoded r (selects needed) written.columns.length t.columns 0 .empty⟩ := by
  have hread := (reads_readRowNeeded tid hadded h hbytes hneeded).run
  simp only [newRowFromBytesNeeded, StateT.run, hread]
  rfl

/-- The row codec.  The row `r` was written with the columns of `written`, to which `t` has
added others. -/
theorem row_codec {r : Row} (written t : Table) {data : Bytes} (needed : List Bool) (tid : Nat)
    (hadded : written.columns <+: t.columns) (hid : r.id.length < 2 ^ 16)
    (hvalues : ∀ col : Column, col ∈ written.columns → col.Has (r.value col.name.subEntityName))
    (hbytes : r.bytes written = .ok data) (hneeded : needed.length = t.columns.length) :
    ∃ full part,
      newRowFromBytes t data tid = .ok full ∧
      newRowFromBytesNeeded t needed data tid = .ok part ∧
      full.id = r.id ∧ part.id = r.id ∧
      (∀ (i : Nat) (col : Column), t.columns[i]? = some col →
        ∃ w, full.data.get? col.name.id = some w ∧
        if i < written.columns.length then
          SameValue col.typ w (r.value col.name.subEntityName)
        else w.isNull) ∧
      ∀ (i : Nat) (col : Column), t.columns[i]? = some col → needed[i]? = some true →
        part.data.get? col.name.id = full.data.get? col.name.id := by
  have hstored : r.StoredIn written := ⟨hid, fun col hcol => (hvalues col hcol).toKeeps⟩
  have hfull := newRowFromBytesNeeded_eq [] tid hadded hstored hbytes (.inl rfl)
  rw [newRowFromBytesNeeded_nil] at hfull
  have hpart := newRowFromBytesNeeded_eq needed tid hadded hstored hbytes (.inr hneeded)
  have hget : ∀ {needed : List Bool} {i : Nat} {col : Column}, t.columns[i]? = some col →
      selects needed i → (decoded r (selects needed) written.columns.length t.columns 0
        .empty).get? col.name.id = some (decodedValue r written.columns.length col i) := by
    intro needed i col hcol hselects
    rw [← Nat.zero_add i] at hselects
    have hdecoded : (decoded r (selects needed) written.columns.length t.columns 0 .empty).get?
        col.name.id = some (decodedValue r written.columns.length col (0 + i)) :=
      get?_decoded t.nodup_columnIds hcol hselects
    rwa [Nat.zero_add] at hdecoded
  refine ⟨_, _, hfull, hpart, rfl, rfl, fun i col hcol => ⟨_, hget hcol rfl, ?_⟩, ?_⟩
  · unfold decodedValue
    by_cases hi : i < written.columns.length
    · rw [if_pos hi, if_neg (by omega)]
      have hwritten : written.columns[i]? = some col := by
        rw [← hcol]
        exact (List.prefix_iff_getElem?.1 hadded i hi).symm ▸ List.getElem?_eq_getElem hi
      exact sameValue_readBack (hvalues col (List.mem_of_getElem? hwritten))
    · rw [if_neg hi, if_pos (by omega)]
      rfl
  · intro i col hcol hi
    have hselects : selects needed i := by simp [selects, List.getD, hi]
    exact (hget hcol hselects).trans (hget hcol rfl).symm

def numbersTable (names : List Text) (hnames : ∀ c ∈ names, c ≠ []) (hnodup : names.Nodup)
    (hlength : names.length ≤ maxColumns) : Table where
  name := { catalogName := ['M'], schemaName := ['P'], entityName := ['T'] }
  columns := names.map fun c =>
    { name := { catalogName := ['M'], schemaName := ['P'], entityName := ['T'], subEntityName := c }
      typ := { typ := .integer }, notNull := false, scale_le := Column.zero_scale_le }
  name_customId := Identifier.customId_nil
  name_subEntityName := Identifier.customId_nil
  name_entityName := Table.entityName_ne
  column_name := by simpa using hnames
  nodup := by simpa [List.map_map, Function.comp_def] using hnodup
  columns_le := by simpa using hlength

def sevenRow : Row where
  id := [0]
  tid := 1
  data := OrderedMap.setAll
    [(['A'], ⟨{ typ := .integer }, some (.int 7), by decide⟩), (['B'], .null { typ := .integer })]
    .empty

/-- The row (7, NULL) of a table that has a third column now, of which the second is needed. -/
theorem row_codec_addedColumn :
    ∃ full part,
      newRowFromBytes (numbersTable [['A'], ['B'], ['C']] (by decide) (by decide) (by decide))
        [0, 1, 0, 0, 2, 0, 0, 0, 0, 7, 1] 1 = .ok full ∧
      newRowFromBytesNeeded (numbersTable [['A'], ['B'], ['C']] (by decide) (by decide)
        (by decide)) [false, true, false] [0, 1, 0, 0, 2, 0, 0, 0, 0, 7, 1] 1 = .ok part ∧
      full.id = [0] ∧ part.id = [0] := by
  have hvalues : ∀ col : Column,
      col ∈ (numbersTable [['A'], ['B']] (by decide) (by decide) (by decide)).columns →
        col.Has (sevenRow.value col.name.subEntityName) := by
    intro col hcol
    obtain rfl | rfl : col = _ ∨ col = _ := by simpa [numbersTable] using hcol
    · exact ⟨⟨fun _ => ⟨rfl, rfl, fun _ => rfl⟩, fun h => by cases h⟩, fun x hx => by cases hx⟩
    · refine ⟨⟨fun h => ?_, fun h => ?_⟩, fun x hx => ?_⟩
      · cases h
      · cases h
      · cases hx
  obtain ⟨full, part, hfull, hpart, hid, hid', -⟩ :=
    row_codec (numbersTable [['A'], ['B']] (by decide) (by decide) (by decide))
      (numbersTable [['A'], ['B'], ['C']] (by decide) (by decide) (by decide))
      [false, true, false] 1 (by exact ⟨_, rfl⟩) (by decide) hvalues (by rfl) rfl
  exact ⟨full, part, hfull, hpart, hid, hid'⟩

end Vsql.Rows
