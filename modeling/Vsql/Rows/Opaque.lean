import Vsql.Rows.Names

/-!
# Opaque names

What a statement does to a row does not depend on how the columns are called, as long as
no column has a period in its name.  With a period the value of the column is lost when
the row is written back.
-/

namespace Vsql.Rows

open Foundation
open Foundation.Reader

/-! ## What opaque names mean -/

/-- Reading a row, reducing it and writing it back gives the same values. -/
def Table.RoundTrips (t : Table) : Prop :=
  ∀ (stored : Row) (tid : Nat) (data : Bytes), stored.StoredIn t → stored.bytes t = .ok data →
    ∃ r data' r', newRowFromBytes t data tid = .ok r ∧ r.forStorage.bytes t = .ok data' ∧
      newRowFromBytes t data' tid = .ok r' ∧
      ∀ col ∈ t.columns, r'.value col.name.id = r.value col.name.id

/-- DELETE, CREATE INDEX and ALTER TABLE find each value by the name of its column. -/
def Table.Reduces (t : Table) : Prop :=
  ∀ (stored : Row) (tid : Nat) (data : Bytes) (r : Row), stored.StoredIn t →
    stored.bytes t = .ok data → newRowFromBytes t data tid = .ok r →
    ∀ col ∈ t.columns, r.forStorage.value col.name.subEntityName = r.value col.name.id

/-- UPDATE changes only the columns that it names. -/
def Table.UpdatesOnlyNamed (t : Table) : Prop :=
  ∀ (timeZone : TimeZone) (set : List SetClause) (stored : Row) (tid : Nat) (data : Bytes)
    (r before after : Row), stored.StoredIn t → stored.bytes t = .ok data →
    newRowFromBytes t data tid = .ok r →
    updateRow timeZone t set r = .ok (some (before, after)) → ∀ data', after.bytes t = .ok data' →
      ∃ r', newRowFromBytes t data' tid = .ok r' ∧
      ∀ col ∈ t.columns, col.name.subEntityName ∉ set.map (·.columnName) →
        r'.value col.name.id = r.value col.name.id

/-- The names of the tables of a FROM clause are opaque. -/
structure Opaque (tables : List TablePrimary) : Prop where
  roundTrip : ∀ p ∈ tables, p.table.RoundTrips
  reduced : ∀ p ∈ tables, p.table.Reduces
  updated : ∀ p ∈ tables, p.table.UpdatesOnlyNamed
  keys : ∀ ranges, fromClause tables = .ok ranges →
    (ranges.flatMap TablePrimary.columnIds).Nodup

/-! ## Names without periods -/

variable {t : Table}

theorem bytesOfColumns_readBack {r r' : Row} {limit : Nat} {cols : List Column} {buf : Bytes}
    (h : ∀ col ∈ cols, col.Keeps (r.value col.name.subEntityName) ∧
      r'.value col.name.subEntityName = readBack col (r.value col.name.subEntityName)) :
    bytesOfColumns r' limit cols buf = bytesOfColumns r limit cols buf := by
  induction cols generalizing buf with
  | nil => rfl
  | cons col cols ih =>
      obtain ⟨hkeeps, hvalue⟩ := h col (by simp)
      have hrest : ∀ buf, bytesOfColumns r' limit cols buf = bytesOfColumns r limit cols buf :=
        fun _ => ih fun c hc => h c (by simp [hc])
      have hindicator : writeNullIndicator col (readBack col (r.value col.name.subEntityName)) =
          writeNullIndicator col (r.value col.name.subEntityName) := by
        simp only [writeNullIndicator, isNull_readBack hkeeps]
      simp only [bytesOfColumns, hvalue, hindicator, isNull_readBack hkeeps,
        stringValue_readBack hkeeps, writeColumn_readBack hkeeps, hrest]

theorem value_forStorage_readAs (ht : t.NoPeriods) {stored : Row} (tid : Nat) {col : Column}
    (hcol : col ∈ t.columns) :
    (stored.readAs t tid).forStorage.value col.name.subEntityName =
      readBack col (stored.value col.name.subEntityName) := by
  rw [value_forStorage (hasColumns_readAs stored t tid) ht hcol, value_readAs hcol]

theorem Table.NoPeriods.reduces (ht : t.NoPeriods) : t.Reduces := by
  intro stored tid data r hstored hbytes hread col hcol
  rw [newRowFromBytes_bytes tid hstored hbytes, Except.ok.injEq] at hread
  subst hread
  exact value_forStorage (hasColumns_readAs stored t tid) ht hcol

/-- The row is written back in the very same bytes. -/
theorem bytes_forStorage_readAs (ht : t.NoPeriods) {stored : Row} (tid : Nat)
    (h : stored.StoredIn t) : (stored.readAs t tid).forStorage.bytes t = stored.bytes t :=
  bytesOfColumns_readBack fun col hcol =>
    ⟨h.keeps col hcol, value_forStorage_readAs ht tid hcol⟩

theorem Table.NoPeriods.roundTrips (ht : t.NoPeriods) : t.RoundTrips := by
  intro stored tid data hstored hbytes
  have hread := newRowFromBytes_bytes tid hstored hbytes
  refine ⟨_, data, _, hread, ?_, hread, fun _ _ => rfl⟩
  rw [bytes_forStorage_readAs ht tid hstored, hbytes]

/-! ## UPDATE without periods -/

theorem readBack_readBack {col : Column} {v : Value} (h : col.Keeps v)
    (hlength : v.stringValue.length < 2 ^ 31) :
    readBack col (readBack col v) = readBack col v := by
  -- Both are read from the same bytes.
  have hlength' : (readBack col v).stringValue.length < 2 ^ 31 := by
    rwa [stringValue_readBack h]
  have hagain := reads_readColumn h.readBack hlength'
  rw [writeColumn_readBack h] at hagain
  exact hagain.unique (reads_readColumn h hlength)

theorem Table.column_eq_ok {name : Text} {col : Column} (h : t.column name = .ok col) :
    col ∈ t.columns ∧ col.name.subEntityName = name := by
  unfold Table.column at h
  split at h
  · next found hfind =>
      simp only [Except.ok.injEq] at h
      subst h
      exact ⟨List.mem_of_find?_eq_some hfind, by simpa using List.find?_some hfind⟩
  · cases h

theorem keeps_cast {timeZone : TimeZone} {col : Column} {raw value : Value}
    (hnull : ¬(col.notNull && raw.isNull) = true) (h : cast timeZone raw col.typ = .ok value) :
    col.Keeps value := by
  cases hraw : raw.isNull with
  | true =>
      rw [cast, if_pos hraw, Except.ok.injEq] at h
      subst h
      refine ⟨fun hvalue => ?_, fun hcol => ?_⟩
      · simp [hraw] at hvalue
      · simp [hcol, hraw] at hnull
  | false =>
      have hstored := storedAs_cast hraw h
      exact ⟨fun _ => hstored, fun _ => hstored.notNull⟩

/-- What a clause can do to the new row. -/
theorem setColumn_eq_ok {timeZone : TimeZone} {row : Row} {new new' : Row × Bool}
    {clause : SetClause} (h : setColumn timeZone t row new clause = .ok new') :
    ∃ col ∈ t.columns, col.name.subEntityName = clause.columnName ∧
      (new' = new ∨ ∃ value, col.Keeps value ∧
        new' = ({ new.1 with data := new.1.data.set col.name.id value }, true)) := by
  unfold setColumn at h
  obtain ⟨col, hcol, h⟩ := ok_of_bind h
  obtain ⟨hmem, hname⟩ := Table.column_eq_ok hcol
  obtain ⟨raw, -, h⟩ := ok_of_bind h
  refine ⟨col, hmem, hname, ?_⟩
  split at h
  · cases h
  · next hnull =>
      obtain ⟨-, -, h⟩ := ok_of_bind h
      obtain ⟨-, -, h⟩ := ok_of_bind h
      dsimp only at h
      obtain ⟨cmp, -, h⟩ := ok_of_bind h
      split at h
      · cases h
        exact .inl rfl
      · obtain ⟨value, hvalue, h⟩ := ok_of_bind h
        cases h
        exact .inr ⟨value, keeps_cast hnull hvalue, by rw [t.id_column hmem, hname]⟩

/-- The new row of an update, of which some columns have been set. -/
structure Updating (t : Table) (row : Row) (names : List Text) (new : Row) : Prop where
  id : new.id = row.id
  tid : new.tid = row.tid
  columns : new.HasColumns t
  keeps : ∀ col ∈ t.columns, col.Keeps (new.value col.name.id)
  others : ∀ col ∈ t.columns, col.name.subEntityName ∉ names →
    new.value col.name.id = row.value col.name.id

theorem Updating.set {row new : Row} {names : List Text} {col : Column} {value : Value}
    (h : Updating t row names new) (hcol : col ∈ t.columns) (hvalue : col.Keeps value) :
    Updating t row (names ++ [col.name.subEntityName])
      { new with data := new.data.set col.name.id value } := by
  have hid : ∀ c ∈ t.columns, c.name.id = col.name.id →
      c.name.subEntityName = col.name.subEntityName := by
    intro c hc heq
    rw [t.id_column hc, t.id_column hcol] at heq
    simpa [columnId] using heq
  have hset : ∀ c : Column, ({ new with data := new.data.set col.name.id value } : Row).value
      c.name.id = if c.name.id = col.name.id then value else new.value c.name.id := by
    intro c
    simp only [Row.value, OrderedMap.get?_set]
    split <;> simp
  refine ⟨h.id, h.tid, ?_, fun c hc => ?_, fun c hc hnot => ?_⟩
  · have hkeys := h.columns
    unfold Row.HasColumns at hkeys ⊢
    rw [OrderedMap.keys_set_of_mem, hkeys]
    rw [hkeys]
    exact List.mem_map.mpr ⟨col, hcol, rfl⟩
  · rw [hset]
    split
    · next heq =>
        have hsame : c = col := List.inj_on_of_nodup_map t.nodup hc hcol (hid c hc heq)
        rwa [hsame]
    · exact h.keeps c hc
  · rw [List.mem_append, List.mem_singleton, not_or] at hnot
    rw [hset, if_neg fun heq => hnot.2 (hid c hc heq)]
    exact h.others c hc hnot.1

theorem Updating.foldlM {timeZone : TimeZone} {row : Row} {set : List SetClause}
    {names : List Text} {new new' : Row × Bool} (h : Updating t row names new.1)
    (hset : set.foldlM (setColumn timeZone t row) new = .ok new') :
    Updating t row (names ++ set.map (·.columnName)) new'.1 := by
  induction set generalizing names new with
  | nil =>
      cases hset
      simpa using h
  | cons clause set ih =>
      rw [List.foldlM_cons] at hset
      obtain ⟨next, hclause, hothers⟩ := ok_of_bind hset
      obtain ⟨col, hcol, hname, rfl | ⟨value, hvalue, rfl⟩⟩ := setColumn_eq_ok hclause
      · have hrest := ih ⟨h.id, h.tid, h.columns, h.keeps, fun c hc hnot =>
          h.others c hc fun hmem => hnot (List.mem_append_left [clause.columnName] hmem)⟩ hothers
        simpa using hrest
      · have hrest := ih (h.set hcol hvalue) hothers
        simpa [hname] using hrest

theorem Table.NoPeriods.updatesOnlyNamed (ht : t.NoPeriods) : t.UpdatesOnlyNamed := by
  intro timeZone set stored tid data r before after hstored hbytes hread hupdate data' hbytes'
  rw [newRowFromBytes_bytes tid hstored hbytes, Except.ok.injEq] at hread
  subst hread
  obtain ⟨⟨new, didModify⟩, hset, hupdate⟩ := ok_of_bind hupdate
  have hlength : ∀ col ∈ t.columns,
      (stored.value col.name.subEntityName).stringValue.length < 2 ^ 31 := by
    intro col hcol
    have hle := (bytesOfColumns_eq_ok hbytes).2 col hcol (hstored.keeps col hcol)
    simp only [maxRowSize, pageObjectPrefixLength, maxPageSize] at hle
    omega
  have hstart : Updating t (stored.readAs t tid) [] (stored.readAs t tid) := by
    refine ⟨rfl, rfl, hasColumns_readAs stored t tid, fun col hcol => ?_, fun _ _ _ => rfl⟩
    rw [value_readAs hcol]
    exact (hstored.keeps col hcol).readBack
  have hnew := hstart.foldlM hset
  have hafter : after = new.forStorage := by
    cases didModify <;> simp [pure, Except.pure] at hupdate
    exact hupdate.2.symm
  subst hafter
  have hreduced : ∀ col ∈ t.columns,
      new.forStorage.value col.name.subEntityName = new.value col.name.id := fun col hcol =>
    value_forStorage hnew.columns ht hcol
  have hstored' : new.forStorage.StoredIn t := by
    refine ⟨?_, fun col hcol => ?_⟩
    · have hid : new.forStorage.id = stored.id := hnew.id
      rw [hid]
      exact hstored.id
    · rw [hreduced col hcol]
      exact hnew.keeps col hcol
  refine ⟨_, newRowFromBytes_bytes tid hstored' hbytes', fun col hcol hnot => ?_⟩
  rw [value_readAs hcol, hreduced col hcol, hnew.others col hcol (by simpa using hnot),
    value_readAs hcol]
  exact readBack_readBack (hstored.keeps col hcol) (hlength col hcol)

/-! ## The keys of joined rows -/

theorem TablePrimary.columnIds_eq (p : TablePrimary) : p.columnIds =
    (p.table.columns.map (·.name.subEntityName)).map (columnId p.name.id) := by
  rw [TablePrimary.columnIds, List.map_map]
  refine List.map_congr_left fun col hcol => ?_
  by_cases hcorrelation : p.correlationName = []
  · have hname : p.name = p.table.name := by simp [TablePrimary.name, hcorrelation]
    simp only [hcorrelation, ne_eq, not_true_eq_false, if_false, Function.comp_apply, hname]
    exact p.table.id_column hcol
  · have hname : p.name.id = p.correlationName := by
      simp [TablePrimary.name, hcorrelation, Identifier.id, Identifier.parts, List.intercalate]
    have hentity : Identifier.id { entityName := p.correlationName } = p.correlationName := by
      simp [Identifier.id, Identifier.parts, hcorrelation, List.intercalate]
    have hid := id_of_subEntityName (e := { entityName := p.correlationName })
      (c := col.name.subEntityName) rfl rfl hcorrelation (p.table.column_name col hcol).2
    rw [hentity] at hid
    simpa [hcorrelation, hname] using hid

theorem fromClause_eq_ok {tables added ranges : List TablePrimary}
    (hadded : (added.map (·.name.id)).Nodup) (h : tables.foldlM addTable added = .ok ranges) :
    (ranges.map (·.name.id)).Nodup ∧ ranges = added ++ tables := by
  induction tables generalizing added with
  | nil =>
      cases h
      exact ⟨hadded, by simp⟩
  | cons p tables ih =>
      rw [List.foldlM_cons] at h
      obtain ⟨next, hp, h⟩ := ok_of_bind h
      unfold addTable at hp
      split at hp
      · cases hp
      · next hnew =>
          split at hp
          · cases hp
          · cases hp
            have hnodup : ((added ++ [p]).map (·.name.id)).Nodup := by
              rw [List.map_append, List.nodup_append]
              refine ⟨hadded, by simp, ?_⟩
              rintro a ha b hb rfl
              rw [List.map_singleton, List.mem_singleton] at hb
              exact hnew (hb ▸ ha)
            have hrest := ih hnodup h
            simpa using hrest

theorem nodup_keys {tables ranges : List TablePrimary}
    (ht : ∀ p ∈ tables, p.table.NoPeriods) (h : fromClause tables = .ok ranges) :
    (ranges.flatMap TablePrimary.columnIds).Nodup := by
  have hfrom : tables.foldlM addTable [] = .ok ranges := h
  obtain ⟨hnames, hranges⟩ := fromClause_eq_ok (by simp) hfrom
  rw [List.nil_append] at hranges
  subst hranges
  rw [List.nodup_flatMap]
  refine ⟨fun p hp => ?_, ?_⟩
  · rw [p.columnIds_eq]
    refine p.table.nodup.map fun c d hcd => ?_
    simpa [columnId] using hcd
  · rw [List.Nodup, List.pairwise_map] at hnames
    refine hnames.imp_of_mem fun {p q} hp hq hne id hid hid' => ?_
    rw [TablePrimary.columnIds_eq, List.mem_map] at hid hid'
    obtain ⟨c, hc, rfl⟩ := hid
    obtain ⟨d, hd, heq⟩ := hid'
    obtain ⟨col, hcol, rfl⟩ := List.mem_map.mp hc
    obtain ⟨col', hcol', rfl⟩ := List.mem_map.mp hd
    exact hne (columnId_inj (ht q hq col' hcol') (ht p hp col hcol) heq).1.symm

/-! ## A name with a period -/

def sampleContent (t : DataType) : Content :=
  match t.typ with
  | .boolean => .bool true
  | .bigint | .integer | .smallint => .int 1
  | .doublePrecision | .real => .f64 (BinaryFloat.nan binary64)
  | .varchar | .character => .string [120]
  | .date | .timeWithTimeZone | .timeWithoutTimeZone | .timestampWithTimeZone
  | .timestampWithoutTimeZone => .time ⟨t, noTimeZone, ⟨1970, 1, 1, 0, 0, 0, 0⟩, by decide⟩
  | .numeric | .decimal => .numeric ⟨t, 10 ^ t.scale, 10 ^ t.scale⟩

theorem sampleContent_fits {t : DataType} (h : t.scale ≤ maxNumericPrecision) :
    (sampleContent t).Fits t := by
  cases htyp : t.typ <;> simp only [sampleContent, htyp, Content.Fits]
  case numeric | decimal =>
    refine ⟨by simp [SqlType.isExactDecimal, htyp], ⟨rfl, h⟩, ⟨by positivity, ?_⟩, ?_⟩
    · exact pow_lt_pow_right₀ (by omega) (by omega)
    · have hone : (1 : Int) < 10 ^ maxNumericPrecision :=
        one_lt_pow₀ (by omega) (by simp [maxNumericPrecision])
      have hpos : (0 : Int) < 10 ^ t.scale := by positivity
      have habs : (((10 : Int) ^ t.scale).natAbs : Int) = 10 ^ t.scale :=
        Int.natAbs_of_nonneg hpos.le
      simp only [habs]
      exact lt_mul_of_one_lt_left hpos hone
  all_goals simp [SqlType.isInteger, SqlType.isString, SqlType.isDatetime, SqlType.intBits]
  exact .inl (by decide)

def sampleValue (col : Column) : Value :=
  ⟨col.typ, some (sampleContent col.typ), by simpa using sampleContent_fits col.scale_le⟩

/-- A row that has no value that is all zeros. -/
def sampleRow (t : Table) : Row where
  id := []
  tid := 0
  data := OrderedMap.setAll
    (t.columns.map fun col => (col.name.subEntityName, sampleValue col)) .empty

theorem value_sampleRow {col : Column} (hcol : col ∈ t.columns) :
    (sampleRow t).value col.name.subEntityName = sampleValue col := by
  have hmem : (col.name.subEntityName, sampleValue col) ∈
      t.columns.map fun col => (col.name.subEntityName, sampleValue col) :=
    List.mem_map.mpr ⟨col, hcol, rfl⟩
  have hnodup : ((t.columns.map fun col => (col.name.subEntityName, sampleValue col)).map
      Prod.fst).Nodup := by
    rw [List.map_map]
    exact t.nodup
  have hget : (sampleRow t).data.get? col.name.subEntityName = some (sampleValue col) :=
    OrderedMap.get?_setAll_of_mem hnodup hmem
  rw [Row.value, hget, Option.getD_some]

theorem keeps_sampleValue (col : Column) : col.Keeps (sampleValue col) :=
  ⟨fun hnull => ⟨hnull, rfl, fun _ => rfl⟩, fun _ => rfl⟩

theorem sampleRow_storedIn (t : Table) : (sampleRow t).StoredIn t := by
  refine ⟨by simp [sampleRow], fun col hcol => ?_⟩
  rw [value_sampleRow hcol]
  exact keeps_sampleValue col

theorem length_writeContent_sampleValue (col : Column) :
    (sampleValue col).stringValue.length ≤ 16 ∧
      (writeContent col.typ.typ (sampleValue col)).length ≤ 2 ^ 15 + 16 := by
  have hv : (sampleValue col).v = some (sampleContent col.typ) := rfl
  have hfits := sampleContent_fits col.scale_le
  cases ht : col.typ.typ <;> simp only [sampleContent, ht] at hv hfits
  case numeric | decimal =>
    have hshort := (shortNumeric_of_fits hfits).length_numericBytes
    simp [writeContent, hv, Value.numericValue, Value.stringValue, writeInt]
    omega
  case timeWithTimeZone | timestampWithTimeZone | date | timeWithoutTimeZone |
      timestampWithoutTimeZone =>
    simp [writeContent, hv, Value.timeValue?, Value.stringValue, length_timeBytes, timeLength]
    split <;> omega
  all_goals simp [writeContent, hv, Value.stringValue, writeInt]

theorem sampleRow_bytes (t : Table) : ∃ data, (sampleRow t).bytes t = .ok data := by
  have hle := t.columns_le
  refine ⟨_, bytesOfColumns_of_le (fun col hcol => ?_) ?_⟩
  · rw [value_sampleRow hcol]
    obtain ⟨hstring, hcontent⟩ := length_writeContent_sampleValue col
    have hwritten : col.isWritten (sampleValue col).isNull = true := isWritten_of_content col rfl
    refine ⟨hstring, ?_⟩
    unfold writeColumn writeNullIndicator writeBool
    rw [List.length_append, if_pos hwritten]
    split <;> simp only [List.length_cons, List.length_nil] <;> omega
  · simp only [maxColumns] at hle
    simp [sampleRow, maxRowSize, pageObjectPrefixLength, maxPageSize]
    omega

theorem readBack_sampleValue_ne (col : Column) : readBack col (sampleValue col) ≠ zeroValue := by
  intro h
  have hback := readBack_v (keeps_sampleValue col)
  rw [h] at hback
  cases ht : col.typ.typ <;>
    simp [zeroValue, sampleValue, sampleContent, ht, storedContent] at hback

/-- The value of a column with a period in its name is lost. -/
theorem noPeriods_of_reduces (h : t.Reduces) : t.NoPeriods := by
  intro col hcol hperiod
  obtain ⟨data, hbytes⟩ := sampleRow_bytes t
  have hstored := sampleRow_storedIn t
  have hvalue := h _ 0 data _ hstored hbytes (newRowFromBytes_bytes 0 hstored hbytes) col hcol
  rw [value_forStorage_of_period _ hperiod, value_readAs hcol, value_sampleRow hcol] at hvalue
  exact readBack_sampleValue_ne col hvalue.symm

/-- The names of tables are opaque just when no name of a column has a period. -/
theorem opaque_iff (tables : List TablePrimary) :
    Opaque tables ↔ ∀ p ∈ tables, p.table.NoPeriods := by
  constructor
  · intro h p hp
    exact noPeriods_of_reduces (h.reduced p hp)
  · intro h
    exact ⟨fun p hp => (h p hp).roundTrips, fun p hp => (h p hp).reduces,
      fun p hp => (h p hp).updatesOnlyNamed, fun _ hranges => nodup_keys h hranges⟩

/-! ## The table T (B INTEGER, "A.B" INTEGER, C INTEGER) -/

theorem fits_integer (x : Int) (h : -2 ^ 31 ≤ x ∧ x < 2 ^ 31) :
    ∀ c ∈ some (Content.int x), c.Fits { typ := .integer } := by
  simpa [Content.Fits, SqlType.isInteger, SqlType.intBits] using h

def integerValue (x : Int) (h : -2 ^ 31 ≤ x ∧ x < 2 ^ 31) : Value :=
  ⟨{ typ := .integer }, some (.int x), fits_integer x h⟩

def periodTable : Table where
  name := { catalogName := ['M'], schemaName := ['P'], entityName := ['T'] }
  columns := [['B'], ['A', '.', 'B'], ['C']].map fun c =>
    { name := { catalogName := ['M'], schemaName := ['P'], entityName := ['T'], subEntityName := c }
      typ := { typ := .integer }, notNull := false, scale_le := Column.zero_scale_le }
  name_customId := Identifier.customId_nil
  name_subEntityName := Identifier.customId_nil
  name_entityName := Table.entityName_ne
  column_name := by decide
  nodup := by decide
  columns_le := by decide

/-- The values of B, "A.B" and C. -/
def periodRow (b ab c : Fin 10) : Row where
  id := [0]
  tid := 1
  data := OrderedMap.setAll
    [(['B'], integerValue b (by omega)), (['A', '.', 'B'], integerValue ab (by omega)),
      (['C'], integerValue c (by omega))] .empty

theorem periodRow_storedIn (b ab c : Fin 10) : (periodRow b ab c).StoredIn periodTable := by
  refine ⟨by simp [periodRow], fun col hcol => ?_⟩
  have hcolumn : col.notNull = false ∧ col.typ = { typ := .integer } ∧
      ((periodRow b ab c).value col.name.subEntityName).typ = { typ := .integer } := by
    obtain rfl | rfl | rfl : col = _ ∨ col = _ ∨ col = _ := by
      simpa [periodTable] using hcol
    all_goals exact ⟨rfl, rfl, rfl⟩
  obtain ⟨hnotNull, htyp, hvalue⟩ := hcolumn
  refine ⟨fun hnull => ⟨hnull, by rw [htyp, hvalue], fun _ => by rw [htyp, hvalue]⟩, ?_⟩
  simp [hnotNull]

def periodBytes (b ab c : UInt8) : Bytes :=
  [0, 1, 0, 0, 3, 0, 0, 0, 0, b, 0, 0, 0, 0, ab, 0, 0, 0, 0, c]

theorem periodRow_read {b ab c : Fin 10} {b' ab' c' : UInt8}
    (h : (periodRow b ab c).bytes periodTable = .ok (periodBytes b' ab' c')) :
    newRowFromBytes periodTable (periodBytes b' ab' c') 1 =
      .ok ((periodRow b ab c).readAs periodTable 1) :=
  newRowFromBytes_bytes 1 (periodRow_storedIn b ab c) h

/-- Writing a row back, or UPDATE T SET C = 4, moves the value of "A.B" to B; and in
FROM T AS X, T AS "X.A" two columns have the key X.A.B. -/
theorem not_opaque_period : ¬periodTable.RoundTrips ∧ ¬periodTable.UpdatesOnlyNamed ∧
    ∃ ranges,
      fromClause [⟨periodTable, ['X']⟩, ⟨periodTable, ['X', '.', 'A']⟩] = .ok ranges ∧
      ¬(ranges.flatMap TablePrimary.columnIds).Nodup := by
  have hbytes : (periodRow 1 2 3).bytes periodTable = .ok (periodBytes 1 2 3) := by rfl
  have hstored := periodRow_storedIn 1 2 3
  let first := periodTable.columns.get ⟨0, by decide⟩
  have hfirst : first ∈ periodTable.columns := List.get_mem _ _
  refine ⟨fun h => ?_, fun h => ?_, _, rfl, by decide⟩
  · obtain ⟨r, data', r', hr, hdata', hr', hvalue⟩ := h _ 1 _ hstored hbytes
    rw [periodRow_read hbytes, Except.ok.injEq] at hr
    subst hr
    have hwritten : ((periodRow 1 2 3).readAs periodTable 1).forStorage.bytes periodTable =
        .ok (periodBytes 2 0 3) := by rfl
    have hlost : (periodRow 2 0 3).bytes periodTable = .ok (periodBytes 2 0 3) := by rfl
    rw [hwritten, Except.ok.injEq] at hdata'
    rw [← hdata', periodRow_read hlost, Except.ok.injEq] at hr'
    have hsame := hvalue first hfirst
    rw [← hr'] at hsame
    exact absurd hsame (by decide)
  · let r := (periodRow 1 2 3).readAs periodTable 1
    let value := integerValue 4 (by decide)
    let new := { r with data := r.data.set (columnId periodTable.name.id ['C']) value }
    have hset : updateRow noTimeZone periodTable
        [⟨['C'], fun _ => .ok value⟩] r = .ok (some (r.forStorage, new.forStorage)) := by rfl
    obtain ⟨r', hr', hvalue⟩ := h _ _ _ 1 _ _ _ _ hstored hbytes (periodRow_read hbytes) hset
      (periodBytes 2 0 4) (by with_unfolding_all rfl)
    have hlost : (periodRow 2 0 4).bytes periodTable = .ok (periodBytes 2 0 4) := by rfl
    rw [periodRow_read hlost, Except.ok.injEq] at hr'
    have hsame := hvalue first hfirst (by decide)
    rw [← hr'] at hsame
    exact absurd hsame (by decide)

end Vsql.Rows
