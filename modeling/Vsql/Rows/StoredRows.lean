import Vsql.Rows.Update

/-!
# The rows that UPDATE writes

A row that is written is read with the values that it had, under its own key.  The changes
are stored in two passes, so that a new key is only written where no other row is.
-/

namespace Vsql.Rows

open Foundation

/-! ## The key of a row that was read back -/

variable {col : Column} {v : Value}

theorem isZero_eq_false_of_isNaN {x : F64} (h : x.isNaN) : x.isZero = false := by
  have hpos : 0 < binary64.infinity := by decide
  simp only [BinaryFloat.isNaN, decide_eq_true_eq] at h
  simp only [BinaryFloat.isZero, beq_eq_false_iff_ne, ne_eq]
  omega

theorem writeKeyFloat_asReal {x : F64} (h : x.isNaN ∨ asReal x = x) :
    writeKeyFloat (asReal x) 4 = writeKeyFloat x 4 := by
  have hconvert := convert_asReal x h
  obtain hnan | hreal := h
  · have hzero := isZero_eq_false_of_isNaN hnan
    have hzero' := isZero_eq_false_of_isNaN (isNaN_asReal hnan)
    simp [writeKeyFloat, hzero, hzero', hconvert]
  · rw [hreal]

theorem micros_storedTime (typ : DataType) (x : Time) :
    (storedTime typ x).t.micros = x.t.micros := by
  simp only [storedTime, DateTime.micros, DateTime.unix]
  omega

theorem i64_storedTime (typ : DataType) (x : Time) : (storedTime typ x).i64 = x.i64 := by
  simp only [Time.i64, storedTime, DateTime.i64, DateTime.dateI64, DateTime.timeI64]
  omega

theorem writeKeyTime_storedTime {typ : DataType} {x : Time} (h : x.typ.typ = typ.typ) :
    writeKeyTime (storedTime typ x) typ.typ = writeKeyTime x typ.typ := by
  unfold writeKeyTime
  split
  · next hzone =>
      have htimeZone : (storedTime typ x).timeZone = x.timeZone := by simp [storedTime, hzone]
      have htyp : (storedTime typ x).typ.typ = x.typ.typ := h.symm
      rw [Time.utcMicros, Time.utcMicros, micros_storedTime, htimeZone, htyp]
  · rw [i64_storedTime]

theorem writeKeyNumeric_storedNumeric {typ : DataType} {x : Numeric}
    (h : x.typ.scale = typ.scale) : writeKeyNumeric (storedNumeric typ x) = writeKeyNumeric x := by
  unfold storedNumeric
  split
  · next hzero =>
      have hback : (⟨typ, 0, 10 ^ typ.scale⟩ : Numeric).isZero = true := rfl
      rw [writeKeyNumeric, writeKeyNumeric, if_pos hzero, if_pos hback]
  · next hzero =>
      have hback : ¬(⟨typ, x.numerator, x.denominator⟩ : Numeric).isZero = true := hzero
      rw [writeKeyNumeric, writeKeyNumeric, if_neg hzero, if_neg hback, h]
      rfl

theorem writeKeyValue_readBack (h : col.Keeps v) :
    writeKeyValue (readBack col v) col.typ.typ = writeKeyValue v col.typ.typ := by
  have hback := readBack_v h
  cases hv : v.v with
  | none =>
      rw [hv, Option.map_none] at hback
      simp only [writeKeyValue, hback, hv, Value.intValue, Value.boolValue, Value.f64Value,
        Value.stringValue, Value.timeValue?, Value.numericValue]
  | some c =>
      have hfits := v.fits c hv
      rw [hv, Option.map_some] at hback
      cases c with
      | f64 x =>
          simp only [storedContent] at hback
          simp only [Content.Fits, (h.storedAs hv).typ] at hfits
          obtain ht | ⟨ht, hreal⟩ := hfits
          · simp [writeKeyValue, ht, hback, hv, Value.f64Value]
          · simp [writeKeyValue, ht, hback, hv, Value.f64Value, writeKeyFloat_asReal hreal]
      | time x =>
          have hx : x.typ.typ = col.typ.typ := (h.storedAs hv).typ ▸ hfits.2
          simp only [storedContent] at hback
          simp only [writeKeyValue, hback, hv, Value.intValue, Value.boolValue, Value.f64Value,
            Value.stringValue, Value.timeValue?, Value.numericValue, writeKeyTime_storedTime hx]
      | numeric x =>
          have hnumeric : x.Fits v.typ := hfits
          have hexact : col.typ.typ.isExactDecimal := (h.storedAs hv).typ ▸ hnumeric.typ
          have hscale : x.typ.scale = col.typ.scale :=
            hnumeric.scale.1.trans ((h.storedAs hv).scale hexact)
          simp only [storedContent] at hback
          simp only [writeKeyValue, hback, hv, Value.intValue, Value.boolValue, Value.f64Value,
            Value.stringValue, Value.timeValue?, Value.numericValue,
            writeKeyNumeric_storedNumeric hscale]
      | bool x | int x | string x =>
          simp only [storedContent] at hback
          simp only [writeKeyValue, hback, hv, Value.intValue, Value.boolValue, Value.f64Value,
            Value.stringValue, Value.timeValue?, Value.numericValue]

/-! ## The keys of rows -/

variable {t : BaseTable}

theorem objectKey_congr {r r' : Row} (hid : r.id = r'.id)
    (h : ∀ col ∈ t.columns, writeKeyValue (r.value col.name.subEntityName) col.typ.typ =
      writeKeyValue (r'.value col.name.subEntityName) col.typ.typ) :
    t.objectKey r = t.objectKey r' := by
  have hpart : t.keyPart r = t.keyPart r' := by
    funext name
    unfold BaseTable.keyPart
    cases hcol : t.column name with
    | error e => rfl
    | ok col =>
        obtain ⟨hmem, hname⟩ := Table.column_eq_ok hcol
        have hvalue := h col hmem
        rw [hname] at hvalue
        exact congrArg Except.ok hvalue
  unfold BaseTable.objectKey BaseTable.withId
  rw [hpart, hid]
  split
  · split
    · rfl
    · exact congrArg (fun id => Except.ok (rowKeyPrefix t.id ++ id)) hid
  · cases t.primaryKey.mapM (t.keyPart r') <;> rfl

theorem withId_of_objectKey {r : Row} {key : Bytes} (h : t.objectKey r = .ok key) :
    ∃ id, t.withId r = .ok { r with id := id } ∧ key = rowKeyPrefix t.id ++ id := by
  obtain ⟨row, hrow, h⟩ := ok_of_bind h
  cases h
  unfold BaseTable.withId at hrow ⊢
  split
  · next hkey =>
      rw [if_pos hkey] at hrow
      split at hrow
      · cases hrow
      · next hid =>
          cases hrow
          exact ⟨r.id, by rw [if_neg hid], rfl⟩
  · next hkey =>
      rw [if_neg hkey] at hrow
      obtain ⟨parts, hparts, hrow⟩ := ok_of_bind hrow
      cases hrow
      refine ⟨parts.flatten, ?_, rfl⟩
      rw [hparts]
      rfl

theorem objectKey_of_withId {r row : Row} (h : t.withId r = .ok row) :
    t.objectKey r = .ok (rowKeyPrefix t.id ++ row.id) := by
  rw [BaseTable.objectKey, h]
  rfl

theorem objectKey_withId {r : Row} {key id : Bytes} (h : t.objectKey r = .ok key)
    (hkey : key = rowKeyPrefix t.id ++ id) : t.objectKey { r with id := id } = .ok key := by
  obtain ⟨id', hid', hkey'⟩ := withId_of_objectKey h
  have hsame : id' = id := List.append_cancel_left (hkey'.symm.trans hkey)
  subst hsame
  suffices hagain : t.withId { r with id := id' } = .ok { r with id := id' } by
    rw [objectKey_of_withId hagain, hkey]
  unfold BaseTable.withId at hid' ⊢
  split
  · next hprimaryKey =>
      rw [if_pos hprimaryKey] at hid'
      split at hid'
      · cases hid'
      · next hid =>
          simp only [Except.ok.injEq] at hid'
          rw [← hid', if_neg hid]
  · next hprimaryKey =>
      rw [if_neg hprimaryKey] at hid'
      exact hid'

/-! ## The stored rows -/

/-- The row with its values under the names of the columns, as it was before it was written. -/
def Row.byName (t : Table) (r : Row) : Row :=
  ⟨r.id, r.tid, OrderedMap.setAll
    (t.columns.map fun col => (col.name.subEntityName, r.value col.name.id)) .empty⟩

theorem value_byName {t : Table} (r : Row) {col : Column} (hcol : col ∈ t.columns) :
    (r.byName t).value col.name.subEntityName = r.value col.name.id := by
  have hnodup : ((t.columns.map fun c => (c.name.subEntityName, r.value c.name.id)).map
      Prod.fst).Nodup := by
    rw [List.map_map]
    exact t.nodup
  have hmem : (col.name.subEntityName, r.value col.name.id) ∈
      t.columns.map fun c => (c.name.subEntityName, r.value c.name.id) :=
    List.mem_map.mpr ⟨col, hcol, rfl⟩
  rw [Row.value, Row.byName, OrderedMap.get?_setAll_of_mem hnodup hmem, Option.getD_some]

/-- The key that a row which was read is stored under. -/
def BaseTable.rowKey (t : BaseTable) (row : Row) : Bytes := rowKeyPrefix t.id ++ row.id

/-- What is stored under the key is read as the row. -/
structure StoredRow (t : BaseTable) (key : Bytes) (stored : Stored) (r : Row) : Prop where
  read : newRowFromBytes t.toTable stored.data stored.tid = .ok r
  columns : r.HasColumns t.toTable
  keeps : ∀ col ∈ t.columns, col.Keeps (r.value col.name.id)
  readBack : ∀ col ∈ t.columns, readBack col (r.value col.name.id) = r.value col.name.id
  rowKey : t.rowKey r = key
  key : t.objectKey (r.byName t.toTable) = .ok key

/-- Every row can be read, and is stored under its own key. -/
def TableStorage.Readable (t : BaseTable) (s : TableStorage) : Prop :=
  ∀ key stored, s.rows.get? key = some stored → ∃ r, StoredRow t key stored r

/-- What is stored for a row. -/
structure Written (t : BaseTable) (tid : Nat) (row : Row) (key : Bytes) (stored : Stored) :
    Prop where
  objectKey : t.objectKey row = .ok key
  length : key.length < 2 ^ 16
  tid : stored.tid = tid
  bytes : ∃ id, key = rowKeyPrefix t.id ++ id ∧
    ({ row with id := id } : Row).bytes t.toTable = .ok stored.data

theorem length_key_of_pieces {size : PageSize} {obj : PageObject} {objs : List PageObject}
    (h : Btree.pieces size obj = .ok objs) : obj.key.length < 2 ^ 16 := by
  have hsize := size.2.2
  have hmax : Btree.maxAllowedInPage size ≤ size.1 := Nat.sub_le _ _
  unfold Btree.pieces at h
  split at h
  · split at h
    · cases h
    · next hblob =>
        simp only [Btree.blobSize, PageObject.blobObjectKey, maxPageSize] at hblob hsize
        simp only [List.length_append] at hblob
        omega
  · next hsmall =>
      simp only [PageObject.length, maxPageSize] at hsmall hsize
      omega

variable {s s' : TableStorage}

theorem add_eq_ok {row : Row} {id : Bytes}
    (hid : t.objectKey row = .ok (rowKeyPrefix t.id ++ id))
    (h : s.add t { row with id := id } = .ok s') :
    ∃ stored, Written t s.transactionId row (rowKeyPrefix t.id ++ id) stored ∧
      s' = { s with rows := s.rows.set (rowKeyPrefix t.id ++ id) stored } := by
  obtain ⟨data, hdata, h⟩ := ok_of_bind h
  obtain ⟨objs, hobjs, h⟩ := ok_of_bind h
  cases h
  exact ⟨⟨s.transactionId, data⟩, ⟨hid, length_key_of_pieces hobjs, rfl, id, rfl, hdata⟩, rfl⟩

theorem updateRow_eq_ok {row : Row} {key : Bytes} (hkey : t.objectKey row = .ok key)
    (h : s.updateRow t row = .ok s') :
    ∃ stored, Written t s.transactionId row key stored ∧
      s' = { s with rows := s.rows.set key stored } := by
  obtain ⟨id, hid, rfl⟩ := withId_of_objectKey hkey
  obtain ⟨row', hrow', h⟩ := ok_of_bind h
  obtain ⟨-, -, h⟩ := ok_of_bind h
  rw [hid] at hrow'
  cases hrow'
  exact add_eq_ok hkey h

theorem deleteRow_eq_ok {row : Row} {key : Bytes} (hkey : t.objectKey row = .ok key)
    (h : s.deleteRow t row = .ok s') : s' = { s with rows := s.rows.erase key } := by
  obtain ⟨key', hkey', h⟩ := ok_of_bind h
  rw [hkey] at hkey'
  cases hkey'
  obtain ⟨-, -, h⟩ := ok_of_bind h
  split at h
  · cases h
    rfl
  · cases h

theorem writeRow_eq_ok {row : Row} (h : s.writeRow t row = .ok s') :
    ∃ key stored, Written t s.transactionId row key stored ∧ s.rows.get? key = none ∧
      s' = { s with rows := s.rows.set key stored } := by
  obtain ⟨row', hrow', h⟩ := ok_of_bind h
  have hkey := objectKey_of_withId hrow'
  obtain ⟨id, hid, hprefix⟩ := withId_of_objectKey hkey
  rw [hrow'] at hid
  cases hid
  obtain ⟨-, -, h⟩ := ok_of_bind h
  split at h
  · cases h
  · next hnew =>
      obtain ⟨stored, hstored, rfl⟩ := add_eq_ok hkey h
      refine ⟨_, stored, hstored, ?_, rfl⟩
      rw [OrderedMap.get?_eq_none]
      simpa [OrderedMap.contains] using hnew

/-- A row that was written is read with the values that it had. -/
theorem Written.storedRow {row : Row} {key : Bytes} {stored : Stored} {tid : Nat}
    (h : Written t tid row key stored)
    (hkeeps : ∀ col ∈ t.columns, col.Keeps (row.value col.name.subEntityName)) :
    ∃ r, StoredRow t key stored r ∧ ∀ col ∈ t.columns,
      r.value col.name.id = Rows.readBack col (row.value col.name.subEntityName) := by
  obtain ⟨id, hkey, hbytes⟩ := h.bytes
  have hlength : id.length < 2 ^ 16 := by
    have hkeyLength := h.length
    rw [hkey, List.length_append] at hkeyLength
    omega
  have hstored : ({ row with id := id } : Row).StoredIn t.toTable := ⟨hlength, hkeeps⟩
  have hvalue : ∀ col ∈ t.columns,
      (({ row with id := id } : Row).readAs t.toTable stored.tid).value col.name.id =
        Rows.readBack col (row.value col.name.subEntityName) := fun col hcol =>
    value_readAs (r := { row with id := id }) hcol stored.tid
  have hstring : ∀ col ∈ t.columns,
      (row.value col.name.subEntityName).stringValue.length < 2 ^ 31 := by
    intro col hcol
    have hle := (bytesOfColumns_eq_ok hbytes).2 col hcol (hkeeps col hcol)
    simp only [maxRowSize, pageObjectPrefixLength, maxPageSize] at hle
    exact hle.trans_lt (by omega)
  refine ⟨_, ⟨newRowFromBytes_bytes stored.tid hstored hbytes, hasColumns_readAs _ _ _, ?_, ?_,
    hkey.symm, ?_⟩, hvalue⟩
  · intro col hcol
    rw [hvalue col hcol]
    exact (hkeeps col hcol).readBack
  · intro col hcol
    rw [hvalue col hcol]
    exact readBack_readBack (hkeeps col hcol) (hstring col hcol)
  · have hcongr : t.objectKey
        ((({ row with id := id } : Row).readAs t.toTable stored.tid).byName t.toTable) =
        t.objectKey { row with id := id } := by
      refine objectKey_congr rfl fun col hcol => ?_
      rw [value_byName _ hcol, hvalue col hcol]
      exact writeKeyValue_readBack (hkeeps col hcol)
    rw [hcongr]
    exact objectKey_withId h.objectKey hkey

/-! ## Storing the changes -/

/-- What is under the keys while the changes are being stored. -/
structure StoresChanges (t : BaseTable) (changes : List (Row × Row)) (s s' : TableStorage)
    (moved moved' : List Row) : Prop where
  transactionId : s'.transactionId = s.transactionId
  keys : ∀ c ∈ changes, ∃ k k', t.objectKey c.1 = .ok k ∧ t.objectKey c.2 = .ok k'
  others : ∀ k, (∀ c ∈ changes, t.objectKey c.1 ≠ .ok k) → s'.rows.get? k = s.rows.get? k
  inPlace : ∀ c ∈ changes, ∀ k, t.objectKey c.1 = .ok k → t.objectKey c.2 = .ok k →
    ∃ stored, Written t s.transactionId c.2 k stored ∧ s'.rows.get? k = some stored
  erased : ∀ c ∈ changes, ∀ k, t.objectKey c.1 = .ok k → t.objectKey c.2 ≠ .ok k →
    s'.rows.get? k = none
  moved : moved' = moved ++
    (changes.filter fun c => (t.objectKey c.1).toOption ≠ (t.objectKey c.2).toOption).map Prod.snd

theorem store_eq_ok {c : Row × Row} {moved moved' : List Row}
    (h : UpdateStatementSearched.store t (s, moved) c = .ok (s', moved')) :
    StoresChanges t [c] s s' moved moved' := by
  obtain ⟨k, hk, h⟩ := ok_of_bind h
  obtain ⟨k', hk', h⟩ := ok_of_bind h
  have hothers : ∀ j, (∀ c' ∈ [c], t.objectKey c'.1 ≠ .ok j) → j ≠ k := by
    rintro j hj rfl
    exact hj c (by simp) hk
  split at h
  · next hne =>
      obtain ⟨s₁, hdelete, h⟩ := ok_of_bind h
      cases h
      obtain rfl := deleteRow_eq_ok hk hdelete
      refine ⟨rfl, by simp [hk, hk'], fun j hj => ?_, ?_, ?_, ?_⟩
      · rw [OrderedMap.get?_erase, if_neg (hothers j hj)]
      · simp only [List.mem_singleton, forall_eq, hk, hk', Except.ok.injEq]
        rintro j rfl heq
        exact absurd heq.symm hne
      · simp only [List.mem_singleton, forall_eq, hk, Except.ok.injEq]
        rintro j rfl -
        simp
      · simp [hk, hk', Except.toOption, hne]
  · next heq =>
      rw [not_not] at heq
      subst heq
      obtain ⟨s₁, hupdate, h⟩ := ok_of_bind h
      cases h
      obtain ⟨stored, hstored, rfl⟩ := updateRow_eq_ok hk' hupdate
      refine ⟨rfl, by simp [hk, hk'], fun j hj => ?_, ?_, ?_, ?_⟩
      · rw [OrderedMap.get?_set, if_neg (hothers j hj)]
      · simp only [List.mem_singleton, forall_eq, hk, hk', Except.ok.injEq]
        rintro j rfl -
        exact ⟨stored, hstored, by simp⟩
      · simp only [List.mem_singleton, forall_eq, hk, hk', Except.ok.injEq]
        rintro j rfl hne
        exact absurd rfl hne
      · simp [hk, hk']

theorem storesChanges_of_foldlM {changes : List (Row × Row)} {moved moved' : List Row}
    (hnodup : (changes.map fun c => t.objectKey c.1).Nodup)
    (h : changes.foldlM (UpdateStatementSearched.store t) (s, moved) = .ok (s', moved')) :
    StoresChanges t changes s s' moved moved' := by
  induction changes generalizing s moved with
  | nil =>
      cases h
      exact ⟨rfl, by simp, fun _ _ => rfl, by simp, by simp, by simp⟩
  | cons c changes ih =>
      rw [List.map_cons, List.nodup_cons] at hnodup
      rw [List.foldlM_cons] at h
      obtain ⟨⟨s₁, moved₁⟩, hstore, h⟩ := ok_of_bind h
      have hfirst := store_eq_ok hstore
      have hrest := ih hnodup.2 h
      have hkept : ∀ k, t.objectKey c.1 = .ok k → s'.rows.get? k = s₁.rows.get? k := by
        refine fun k hk => hrest.others k fun c' hc' hk' => hnodup.1 ?_
        exact List.mem_map.mpr ⟨c', hc', hk'.trans hk.symm⟩
      refine ⟨hrest.transactionId.trans hfirst.transactionId, ?_, fun k hk => ?_, ?_, ?_, ?_⟩
      · rw [List.forall_mem_cons]
        exact ⟨hfirst.keys c (by simp), hrest.keys⟩
      · rw [List.forall_mem_cons] at hk
        rw [hrest.others k hk.2, hfirst.others k (by simpa using hk.1)]
      · rw [List.forall_mem_cons]
        refine ⟨fun k hk hk' => ?_, fun c' hc' k hk hk' => ?_⟩
        · obtain ⟨stored, hstored, hget⟩ := hfirst.inPlace c (by simp) k hk hk'
          exact ⟨stored, hstored, (hkept k hk).trans hget⟩
        · rw [← hfirst.transactionId]
          exact hrest.inPlace c' hc' k hk hk'
      · rw [List.forall_mem_cons]
        refine ⟨fun k hk hk' => ?_, hrest.erased⟩
        exact (hkept k hk).trans (hfirst.erased c (by simp) k hk hk')
      · rw [hrest.moved, hfirst.moved, List.append_assoc, ← List.map_append, ← List.filter_append,
          List.singleton_append]

/-- The rows that were moved are written under keys that no other row has. -/
structure WritesMoved (t : BaseTable) (moved : List Row) (s s' : TableStorage) : Prop where
  transactionId : s'.transactionId = s.transactionId
  kept : ∀ k stored, s.rows.get? k = some stored → s'.rows.get? k = some stored
  written : ∀ row ∈ moved, ∃ k stored, Written t s.transactionId row k stored ∧
    s.rows.get? k = none ∧ s'.rows.get? k = some stored
  others : ∀ k, (∀ row ∈ moved, t.objectKey row ≠ .ok k) → s'.rows.get? k = s.rows.get? k
  nodup : (moved.map t.objectKey).Nodup

theorem writesMoved_of_foldlM {moved : List Row}
    (h : moved.foldlM (fun s row => s.writeRow t row) s = .ok s') : WritesMoved t moved s s' := by
  induction moved generalizing s with
  | nil =>
      cases h
      exact ⟨rfl, fun _ _ h => h, by simp, fun _ _ => rfl, List.nodup_nil⟩
  | cons row moved ih =>
      rw [List.foldlM_cons] at h
      obtain ⟨s₁, hwrite, h⟩ := ok_of_bind h
      obtain ⟨key, stored, hstored, hnew, rfl⟩ := writeRow_eq_ok hwrite
      have hrest := ih h
      have hfirst : s'.rows.get? key = some stored := hrest.kept key stored (by simp)
      have hne : ∀ k, s.rows.get? k ≠ none → k ≠ key := by
        rintro k hk rfl
        exact hk hnew
      refine ⟨hrest.transactionId, fun k stored' hk => ?_, ?_, fun k hk => ?_, ?_⟩
      · refine hrest.kept k stored' ?_
        rw [OrderedMap.get?_set, if_neg (hne k (by simp [hk])), hk]
      · rw [List.forall_mem_cons]
        refine ⟨⟨key, stored, hstored, hnew, hfirst⟩, fun row' hrow' => ?_⟩
        obtain ⟨k, stored', hstored', hnone, hsome⟩ := hrest.written row' hrow'
        rw [OrderedMap.get?_set] at hnone
        split at hnone
        · cases hnone
        · exact ⟨k, stored', hstored', hnone, hsome⟩
      · rw [List.forall_mem_cons] at hk
        rw [hrest.others k hk.2, OrderedMap.get?_set, if_neg]
        rintro rfl
        exact hk.1 hstored.objectKey
      · rw [List.map_cons, List.nodup_cons]
        refine ⟨fun hmem => ?_, hrest.nodup⟩
        obtain ⟨row', hrow', hkey⟩ := List.mem_map.mp hmem
        obtain ⟨k, stored', hstored', hnone, -⟩ := hrest.written row' hrow'
        rw [hstored'.objectKey, hstored.objectKey, Except.ok.injEq] at hkey
        subst hkey
        simp at hnone

end Vsql.Rows
