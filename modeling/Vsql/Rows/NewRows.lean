import Mathlib.Data.List.ReduceOption
import Vsql.Rows.StoredRows

/-!
# The new rows of UPDATE

Each SET clause of a row leaves the other columns as they are, so it can be said of every
column what the new row has in it.
-/

namespace Vsql.Rows

open Foundation

variable {t : BaseTable} {timeZone : TimeZone} {s : TableStorage}

/-! ## Generated columns -/

theorem generate_eq_ok {full row row' : Row} {g : GeneratedColumn}
    (h : BaseTable.generate timeZone full row g = .ok row') :
    ∃ value, g.column.Keeps value ∧
      row' = { row with data := row.data.set g.column.name.subEntityName value } := by
  obtain ⟨raw, -, h⟩ := ok_of_bind h
  obtain ⟨value, hcast, h⟩ := ok_of_bind h
  by_cases hnull : (value.isNull && g.column.notNull) = true
  · rw [if_pos hnull] at h
    cases h
  · rw [if_neg hnull] at h
    cases h
    refine ⟨value, keeps_cast (fun hraw => hnull ?_) hcast, rfl⟩
    simp only [Bool.and_eq_true] at hraw ⊢
    rw [cast, if_pos hraw.2, Except.ok.injEq] at hcast
    exact ⟨hcast ▸ hraw.2, hraw.1⟩

/-- What the row has of the other columns is left as it is. -/
structure Generates (t : BaseTable) (row row' : Row) : Prop where
  id : row'.id = row.id
  others : ∀ name, t.isGenerated name = false → row'.value name = row.value name
  keeps : (∀ col ∈ t.columns, col.Keeps (row.value col.name.subEntityName)) →
    ∀ col ∈ t.columns, col.Keeps (row'.value col.name.subEntityName)

theorem value_set (row : Row) (k : Text) (v : Value) (j : Text) :
    ({ row with data := row.data.set k v } : Row).value j = if j = k then v else row.value j := by
  simp only [Row.value, OrderedMap.get?_set]
  split <;> rfl

theorem Table.eq_of_subEntityName (t : Table) {c d : Column} (hc : c ∈ t.columns)
    (hd : d ∈ t.columns) (h : c.name.subEntityName = d.name.subEntityName) : c = d :=
  List.inj_on_of_nodup_map t.nodup hc hd h

theorem generates_generate {row row' : Row} {full : Row} {g : GeneratedColumn}
    (hg : g ∈ t.generated) (h : BaseTable.generate timeZone full row g = .ok row') :
    Generates t row row' := by
  obtain ⟨value, hkeeps, rfl⟩ := generate_eq_ok h
  refine ⟨rfl, fun name hname => ?_, fun hrow col hcol => ?_⟩
  · have hne : name ≠ g.column.name.subEntityName := by
      rintro rfl
      have hany : t.isGenerated g.column.name.subEntityName = true :=
        List.any_eq_true.mpr ⟨g, hg, by simp⟩
      rw [hname] at hany
      cases hany
    rw [value_set, if_neg hne]
  · rw [value_set]
    split
    · next hname =>
        rw [t.eq_of_subEntityName hcol (t.generated_mem g hg) hname]
        exact hkeeps
    · exact hrow col hcol

theorem generates_applyGenerated {row row' : Row}
    (h : t.applyGenerated timeZone row = .ok row') : Generates t row row' := by
  refine foldlM_invariant (P := Generates t row) h ⟨rfl, fun _ _ => rfl, fun h => h⟩ ?_
  intro row₁ g row₂ hg hrow hstep
  have hnext := generates_generate hg hstep
  exact ⟨hnext.id.trans hrow.id, fun name hname => (hnext.others name hname).trans
    (hrow.others name hname), fun hkeeps => hnext.keeps (hrow.keeps hkeeps)⟩

/-! ## The SET clauses -/

variable {stmt : UpdateStatementSearched} {row : Row}

/-- The key of the column of a clause. -/
def UpdateStatementSearched.setId (stmt : UpdateStatementSearched) (t : BaseTable)
    (clause : SetAssignment) : Text :=
  columnId (stmt.rowTableId t) clause.columnName

/-- What a clause does to its column, from the old row. -/
inductive ClauseOf (stmt : UpdateStatementSearched) (timeZone : TimeZone) (t : BaseTable)
    (row : Row) (clause : SetAssignment) (col : Column) : Option Value → Prop
  | generated (h : t.isGenerated clause.columnName = true) :
      ClauseOf stmt timeZone t row clause col none
  | skipped (raw : Value) (h : t.isGenerated clause.columnName = false)
      (hraw : clause.source row = .ok raw)
      (hcompare : Value.compare timeZone (row.value (stmt.setId t clause)) raw = .ok .isEqual) :
      ClauseOf stmt timeZone t row clause col none
  | assigned (raw value : Value) (h : t.isGenerated clause.columnName = false)
      (hraw : clause.source row = .ok raw)
      (hcompare : Value.compare timeZone (row.value (stmt.setId t clause)) raw ≠ .ok .isEqual)
      (hcast : cast timeZone raw col.typ = .ok value) (hkeeps : col.Keeps value) :
      ClauseOf stmt timeZone t row clause col (some value)

theorem assign_eq_ok {new new' : Row × Bool} {clause : SetAssignment}
    (h : stmt.assign timeZone t row new clause = .ok new') :
    ∃ col ∈ t.columns, col.name.subEntityName = clause.columnName ∧
      ∃ set, ClauseOf stmt timeZone t row clause col set ∧
        new' = match set with
          | none => new
          | some value =>
              ({ new.1 with data := new.1.data.set (stmt.setId t clause) value }, true) := by
  obtain ⟨col, hcol, h⟩ := ok_of_bind h
  obtain ⟨hmem, hname⟩ := Table.column_eq_ok hcol
  refine ⟨col, hmem, hname, ?_⟩
  by_cases hgenerated : t.isGenerated clause.columnName = true
  · rw [if_pos hgenerated] at h
    cases h
    exact ⟨none, .generated hgenerated, rfl⟩
  rw [if_neg hgenerated] at h
  rw [Bool.not_eq_true] at hgenerated
  obtain ⟨raw, hraw, h⟩ := ok_of_bind h
  by_cases hnull : (col.notNull && raw.isNull) = true
  · rw [if_pos hnull] at h
    cases h
  rw [if_neg hnull] at h
  obtain ⟨-, -, h⟩ := ok_of_bind h
  obtain ⟨cmp, hcmp, h⟩ := ok_of_bind h
  by_cases hequal : cmp = .isEqual
  · rw [if_pos hequal] at h
    cases h
    exact ⟨none, .skipped raw hgenerated hraw (hequal ▸ hcmp), rfl⟩
  · rw [if_neg hequal] at h
    obtain ⟨value, hcast, h⟩ := ok_of_bind h
    cases h
    have hcompare : Value.compare timeZone (row.value (stmt.setId t clause)) raw ≠
        .ok .isEqual := by
      intro heq
      rw [UpdateStatementSearched.setId, hcmp, Except.ok.injEq] at heq
      exact hequal heq
    exact ⟨some value, .assigned raw value hgenerated hraw hcompare hcast (keeps_cast hnull hcast),
      rfl⟩

/-- A clause gives the row a value that does not compare equal to the old one. -/
def UpdateStatementSearched.Rewrites (stmt : UpdateStatementSearched) (timeZone : TimeZone)
    (t : BaseTable) (row : Row) : Prop :=
  ∃ clause ∈ stmt.set, t.isGenerated clause.columnName = false ∧
    ∃ raw, clause.source row = .ok raw ∧
      Value.compare timeZone (row.value (stmt.setId t clause)) raw ≠ .ok .isEqual

/-- What the clauses do to the new row. -/
structure Assigns (stmt : UpdateStatementSearched) (timeZone : TimeZone) (t : BaseTable)
    (row : Row) (set : List SetAssignment) (new new' : Row × Bool) : Prop where
  id : new'.1.id = new.1.id
  keys : (∀ clause ∈ set, stmt.setId t clause ∈ new.1.data.keys) →
    new'.1.data.keys = new.1.data.keys
  others : ∀ c, c ∉ set.map (·.columnName) →
    new'.1.value (columnId (stmt.rowTableId t) c) = new.1.value (columnId (stmt.rowTableId t) c)
  assigned : ∀ clause ∈ set, ∃ col ∈ t.columns, col.name.subEntityName = clause.columnName ∧
    ∃ set, ClauseOf stmt timeZone t row clause col set ∧
      new'.1.value (stmt.setId t clause) = set.getD (new.1.value (stmt.setId t clause)) ∧
      (set.isSome → new'.2 = true)
  modified : new.2 = true → new'.2 = true
  unmodified : (∀ clause ∈ set, ∀ col set, ClauseOf stmt timeZone t row clause col set →
    set = none) → new'.2 = new.2

theorem columnId_cancel {tableId c d : Text} (h : columnId tableId c = columnId tableId d) :
    c = d := by
  simpa [columnId] using h

theorem assigns_of_foldlM {set : List SetAssignment} {new new' : Row × Bool}
    (hnodup : (set.map (·.columnName)).Nodup)
    (h : set.foldlM (stmt.assign timeZone t row) new = .ok new') :
    Assigns stmt timeZone t row set new new' := by
  induction set generalizing new with
  | nil =>
      cases h
      exact ⟨rfl, fun _ => rfl, fun _ _ => rfl, by simp, fun h => h, fun _ => rfl⟩
  | cons clause set ih =>
      rw [List.map_cons, List.nodup_cons] at hnodup
      rw [List.foldlM_cons] at h
      obtain ⟨next, hclause, h⟩ := ok_of_bind h
      have hrest := ih hnodup.2 h
      obtain ⟨col, hcol, hname, value, hvalue, rfl⟩ := assign_eq_ok hclause
      have hkept := hrest.others clause.columnName hnodup.1
      refine ⟨?_, ?_, ?_, ?_, ?_, ?_⟩
      · rw [hrest.id]
        cases value <;> rfl
      · intro hkeys
        rw [List.forall_mem_cons] at hkeys
        cases value with
        | none => exact hrest.keys hkeys.2
        | some value =>
            have hset := OrderedMap.keys_set_of_mem value hkeys.1
            rw [hrest.keys fun c hc => by simpa [hset] using hkeys.2 c hc]
            exact hset
      · intro c hc
        rw [List.map_cons, List.mem_cons, not_or] at hc
        rw [hrest.others c hc.2]
        cases value with
        | none => rfl
        | some value =>
            exact (value_set _ _ _ _).trans (if_neg fun heq => hc.1 (columnId_cancel heq))
      · rw [List.forall_mem_cons]
        refine ⟨⟨col, hcol, hname, value, hvalue, ?_, ?_⟩, fun c hc => ?_⟩
        · refine hkept.trans ?_
          cases value with
          | none => rfl
          | some value => exact (value_set _ _ _ _).trans (if_pos rfl)
        · intro hsome
          refine hrest.modified ?_
          cases value with
          | none => cases hsome
          | some value => rfl
        · obtain ⟨col', hcol', hname', value', hvalue', hnew, hmodified⟩ := hrest.assigned c hc
          refine ⟨col', hcol', hname', value', hvalue', ?_, hmodified⟩
          rw [hnew]
          have hne : stmt.setId t c ≠ stmt.setId t clause := by
            intro heq
            exact hnodup.1 (columnId_cancel heq ▸ List.mem_map_of_mem hc)
          cases value with
          | none => rfl
          | some value => rw [value_set, if_neg hne]
      · intro hmodified
        refine hrest.modified ?_
        cases value with
        | none => exact hmodified
        | some value => rfl
      · intro hnone
        rw [List.forall_mem_cons] at hnone
        rw [hrest.unmodified hnone.2, hnone.1 col value hvalue]

/-! ## The rows that are matched -/

theorem rowTableId_eq (h : stmt.correlationName = []) : stmt.rowTableId t = t.name.id := by
  simp [UpdateStatementSearched.rowTableId, h]

variable {r : Row}

theorem hasColumnsIn_readRow (ht : t.NoPeriods) (hr : r.HasColumns t.toTable) :
    (stmt.readRow t r).HasColumnsIn (stmt.rowTableId t) t.toTable := by
  unfold UpdateStatementSearched.readRow
  split
  · exact hasColumnsIn_correlated _ ht hr
  · next hcorrelation =>
      rw [rowTableId_eq (not_not.mp hcorrelation)]
      exact hr.hasColumnsIn

theorem value_readRow (ht : t.NoPeriods) (hr : r.HasColumns t.toTable) {col : Column}
    (hcol : col ∈ t.columns) :
    (stmt.readRow t r).value (columnId (stmt.rowTableId t) col.name.subEntityName) =
      r.value col.name.id := by
  unfold UpdateStatementSearched.readRow
  split
  · exact value_correlated _ ht hr hcol
  · next hcorrelation =>
      rw [rowTableId_eq (not_not.mp hcorrelation), ← t.id_column hcol]

theorem id_readRow (stmt : UpdateStatementSearched) (t : BaseTable) (r : Row) :
    (stmt.readRow t r).id = r.id := by
  unfold UpdateStatementSearched.readRow
  split <;> rfl

theorem objectKey_readRow (ht : t.NoPeriods) {key : Bytes} {stored : Stored}
    (hr : StoredRow t key stored r) : t.objectKey (stmt.readRow t r).forStorage = .ok key := by
  rw [← hr.key]
  refine objectKey_congr (id_readRow stmt t r) fun col hcol => ?_
  rw [value_forStorage_in (hasColumnsIn_readRow ht hr.columns) ht hcol,
    value_readRow ht hr.columns hcol, value_byName r hcol]

theorem sublist_filterRows {condition : Row → Except Failure Bool} {rows kept : List Row}
    (h : filterRows condition rows = .ok kept) : kept.Sublist rows := by
  induction rows generalizing kept with
  | nil =>
      cases h
      exact .slnil
  | cons row rows ih =>
      obtain ⟨keep, -, h⟩ := ok_of_bind h
      obtain ⟨rest, hrest, h⟩ := ok_of_bind h
      cases h
      cases keep with
      | true => exact (ih hrest).cons_cons row
      | false => exact (ih hrest).cons row

theorem sublist_currentRows {rows current : List Row} {currentOf : Option (Text × Bytes)}
    (h : currentRows rows currentOf = .ok current) : current.Sublist rows := by
  cases currentOf with
  | none =>
      cases h
      exact .refl _
  | some cursor =>
      simp only [currentRows] at h
      split at h
      · cases h
      · cases h
        exact List.filter_sublist

/-- A row that was read for the statement. -/
structure MatchedRow (stmt : UpdateStatementSearched) (t : BaseTable) (s : TableStorage)
    (key : Bytes) (r row : Row) : Prop where
  stored : ∃ stored, s.rows.get? key = some stored ∧ StoredRow t key stored r
  row : row = stmt.readRow t r

theorem MatchedRow.rowKey {key : Bytes} (h : MatchedRow stmt t s key r row) :
    t.rowKey row = key := by
  obtain ⟨stored, -, hread⟩ := h.stored
  rw [h.row, BaseTable.rowKey, id_readRow]
  exact hread.rowKey

theorem MatchedRow.objectKey {key : Bytes} (ht : t.NoPeriods)
    (h : MatchedRow stmt t s key r row) : t.objectKey row.forStorage = .ok key := by
  obtain ⟨stored, -, hread⟩ := h.stored
  rw [h.row]
  exact objectKey_readRow ht hread

theorem readRows_eq_ok (stmt : UpdateStatementSearched) (hs : s.Readable t) {rows : List Row}
    (h : s.readRows t = .ok rows) :
    List.Forall₂ (fun key r => MatchedRow stmt t s key r (stmt.readRow t r)) s.rows.keys rows := by
  rw [OrderedMap.keys, List.forall₂_map_left_iff]
  refine forall₂_imp_of_mem (forall₂_of_mapM h) fun e he r hread => ⟨⟨e.2, ?_, ?_⟩, rfl⟩
  · exact (OrderedMap.get?_eq_some _).mpr he
  · obtain ⟨r', hr'⟩ := hs e.1 e.2 ((OrderedMap.get?_eq_some _).mpr he)
    rw [hr'.read, Except.ok.injEq] at hread
    exact hread ▸ hr'

theorem matchedRows_eq_ok (hs : s.Readable t) {rows : List Row}
    (h : stmt.matchedRows t s = .ok rows) :
    (∀ row ∈ rows, ∃ key r, MatchedRow stmt t s key r row) ∧ (rows.map t.rowKey).Nodup := by
  obtain ⟨read, hread, h⟩ := ok_of_bind h
  obtain ⟨kept, hkept, h⟩ := ok_of_bind h
  have hsublist := (sublist_currentRows h).trans (sublist_filterRows hkept)
  have hrows := readRows_eq_ok stmt hs hread
  refine ⟨fun row hrow => ?_, ?_⟩
  · obtain ⟨r, hr, rfl⟩ := List.mem_map.mp (hsublist.subset hrow)
    obtain ⟨key, -, hmatched⟩ := exists_of_forall₂ hrows r hr
    exact ⟨key, r, hmatched⟩
  · have hkeys : (read.map (stmt.readRow t)).map t.rowKey = s.rows.keys.map id := by
      rw [List.map_map]
      exact map_eq_map_of_forall₂ hrows fun key r hmatched => hmatched.rowKey
    rw [List.map_id] at hkeys
    exact (hsublist.map _).nodup (hkeys ▸ s.rows.nodup)

theorem nodup_objectKey (ht : t.NoPeriods) {rows : List Row}
    (hmatched : ∀ row ∈ rows, ∃ key r, MatchedRow stmt t s key r row)
    (h : (rows.map t.rowKey).Nodup) :
    (rows.map fun row => t.objectKey row.forStorage).Nodup := by
  have hkeys : rows.map (fun row => t.objectKey row.forStorage) =
      (rows.map t.rowKey).map Except.ok := by
    rw [List.map_map]
    refine List.map_congr_left fun row hrow => ?_
    obtain ⟨key, r, hrow⟩ := hmatched row hrow
    rw [hrow.objectKey ht, Function.comp_apply, hrow.rowKey]
  rw [hkeys]
  exact h.map fun _ _ => Except.ok.inj

/-! ## The changes -/

theorem change_eq_ok {c : Option (Row × Row)} (h : stmt.change timeZone t row = .ok c) :
    ∃ new, stmt.set.foldlM (stmt.assign timeZone t row) (row, false) = .ok new ∧
      (new.2 = false ∧ c = none ∨ new.2 = true ∧ ∃ after,
        t.applyGenerated timeZone new.1.forStorage = .ok after ∧
          c = some (row.forStorage, after)) := by
  obtain ⟨⟨new, didModify⟩, hset, h⟩ := ok_of_bind h
  refine ⟨_, hset, ?_⟩
  cases didModify with
  | false =>
      cases h
      exact .inl ⟨rfl, rfl⟩
  | true =>
      obtain ⟨after, hafter, h⟩ := ok_of_bind h
      obtain ⟨-, -, h⟩ := ok_of_bind h
      cases h
      exact .inr ⟨rfl, after, hafter, rfl⟩

/-- Nothing is modified by clauses that only give values which compare equal. -/
theorem change_of_not_rewrites {c : Option (Row × Row)}
    (hnodup : (stmt.set.map (·.columnName)).Nodup) (h : stmt.change timeZone t row = .ok c)
    (hrewrites : ¬stmt.Rewrites timeZone t row) : c = none := by
  obtain ⟨new, hset, ⟨-, hnone⟩ | ⟨hmodified, -⟩⟩ := change_eq_ok h
  · exact hnone
  · have hassigns := assigns_of_foldlM hnodup hset
    rw [hassigns.unmodified fun clause hclause col set houtcome => ?_] at hmodified
    · cases hmodified
    · cases houtcome with
      | generated | skipped => rfl
      | assigned raw value hgenerated hraw hcompare =>
          exact absurd ⟨clause, hclause, hgenerated, raw, hraw, hcompare⟩ hrewrites

theorem nodup_of_checkSetOnce {seen : List Text} {set : List SetAssignment}
    (h : checkSetOnce seen set = .ok ()) :
    (set.map (·.columnName)).Nodup ∧ ∀ c ∈ set.map (·.columnName), c ∉ seen := by
  induction set generalizing seen with
  | nil => simp
  | cons clause set ih =>
      rw [checkSetOnce] at h
      split at h
      · cases h
      · next hnew =>
          obtain ⟨hnodup, hseen⟩ := ih h
          rw [List.map_cons, List.nodup_cons, List.forall_mem_cons]
          refine ⟨⟨fun hmem => hseen _ hmem (by simp), hnodup⟩, hnew, fun c hc hmem => ?_⟩
          exact hseen c hc (List.mem_cons_of_mem _ hmem)

/-- The changes are of different rows. -/
theorem sublist_changes {rows : List Row} {changes : List (Option (Row × Row))}
    (h : List.Forall₂ (fun row c => stmt.change timeZone t row = .ok c) rows changes) :
    (changes.reduceOption.map fun c => t.objectKey c.1).Sublist
      (rows.map fun row => t.objectKey row.forStorage) := by
  induction h with
  | nil => exact .slnil
  | cons hchange _ ih =>
      obtain ⟨new, -, ⟨-, rfl⟩ | ⟨-, after, -, rfl⟩⟩ := change_eq_ok hchange
      · rw [List.reduceOption_cons_of_none]
        exact ih.cons _
      · rw [List.reduceOption_cons_of_some]
        exact ih.cons_cons _

/-! ## The values of a changed row -/

theorem MatchedRow.hasColumnsIn {key : Bytes} (ht : t.NoPeriods)
    (h : MatchedRow stmt t s key r row) : row.HasColumnsIn (stmt.rowTableId t) t.toTable := by
  obtain ⟨stored, -, hread⟩ := h.stored
  rw [h.row]
  exact hasColumnsIn_readRow ht hread.columns

theorem MatchedRow.value {key : Bytes} (ht : t.NoPeriods) (h : MatchedRow stmt t s key r row)
    {col : Column} (hcol : col ∈ t.columns) :
    row.value (columnId (stmt.rowTableId t) col.name.subEntityName) = r.value col.name.id := by
  obtain ⟨stored, -, hread⟩ := h.stored
  rw [h.row]
  exact value_readRow ht hread.columns hcol

theorem MatchedRow.keeps {key : Bytes} (ht : t.NoPeriods) (h : MatchedRow stmt t s key r row)
    {col : Column} (hcol : col ∈ t.columns) :
    col.Keeps (row.value (columnId (stmt.rowTableId t) col.name.subEntityName)) := by
  obtain ⟨stored, -, hread⟩ := h.stored
  rw [h.value ht hcol]
  exact hread.keeps col hcol

theorem setId_eq {clause : SetAssignment} {col : Column}
    (h : col.name.subEntityName = clause.columnName) :
    stmt.setId t clause = columnId (stmt.rowTableId t) col.name.subEntityName := by
  rw [UpdateStatementSearched.setId, h]

theorem Assigns.hasColumnsIn {new : Row × Bool}
    (h : Assigns stmt timeZone t row stmt.set (row, false) new)
    (hcolumns : row.HasColumnsIn (stmt.rowTableId t) t.toTable) :
    new.1.HasColumnsIn (stmt.rowTableId t) t.toTable := by
  rw [Row.HasColumnsIn, h.keys, hcolumns]
  intro clause hclause
  obtain ⟨col, hcol, hname, -⟩ := h.assigned clause hclause
  rw [setId_eq hname]
  exact hcolumns.mem_keys hcol

theorem Assigns.keeps {new : Row × Bool} {key : Bytes} (ht : t.NoPeriods)
    (h : Assigns stmt timeZone t row stmt.set (row, false) new)
    (hmatched : MatchedRow stmt t s key r row) {col : Column} (hcol : col ∈ t.columns) :
    col.Keeps (new.1.value (columnId (stmt.rowTableId t) col.name.subEntityName)) := by
  by_cases hset : col.name.subEntityName ∈ stmt.set.map (·.columnName)
  · obtain ⟨clause, hclause, hname⟩ := List.mem_map.mp hset
    obtain ⟨col', hcol', hname', set, houtcome, hvalue, -⟩ := h.assigned clause hclause
    obtain rfl := t.eq_of_subEntityName hcol' hcol (hname'.trans hname)
    rw [← setId_eq hname', hvalue]
    cases houtcome with
    | generated | skipped =>
        rw [setId_eq hname']
        exact hmatched.keeps ht hcol
    | assigned raw value _ _ _ _ hkeeps => exact hkeeps
  · rw [h.others _ hset]
    exact hmatched.keeps ht hcol

/-- The new row of a change. -/
structure ChangeOf (stmt : UpdateStatementSearched) (timeZone : TimeZone) (t : BaseTable)
    (row : Row) (new : Row × Bool) (c : Row × Row) : Prop where
  before : c.1 = row.forStorage
  assigns : Assigns stmt timeZone t row stmt.set (row, false) new
  value : ∀ col ∈ t.columns, t.isGenerated col.name.subEntityName = false →
    c.2.value col.name.subEntityName =
      new.1.value (columnId (stmt.rowTableId t) col.name.subEntityName)
  keeps : ∀ col ∈ t.columns, col.Keeps (c.2.value col.name.subEntityName)

theorem changeOf_of_change {key : Bytes} {c : Row × Row} (ht : t.NoPeriods)
    (hnodup : (stmt.set.map (·.columnName)).Nodup) (hmatched : MatchedRow stmt t s key r row)
    (h : stmt.change timeZone t row = .ok (some c)) :
    ∃ new, ChangeOf stmt timeZone t row new c := by
  obtain ⟨new, hset, ⟨-, hnone⟩ | ⟨-, after, hafter, hc⟩⟩ := change_eq_ok h
  · cases hnone
  cases hc
  have hassigns := assigns_of_foldlM hnodup hset
  have hgenerates := generates_applyGenerated hafter
  have hreduced : ∀ col ∈ t.columns, new.1.forStorage.value col.name.subEntityName =
      new.1.value (columnId (stmt.rowTableId t) col.name.subEntityName) := fun col hcol =>
    value_forStorage_in (hassigns.hasColumnsIn (hmatched.hasColumnsIn ht)) ht hcol
  refine ⟨new, rfl, hassigns, fun col hcol hgenerated => ?_, hgenerates.keeps fun col hcol => ?_⟩
  · rw [hgenerates.others _ hgenerated, hreduced col hcol]
  · rw [hreduced col hcol]
    exact hassigns.keeps ht hmatched hcol

end Vsql.Rows
