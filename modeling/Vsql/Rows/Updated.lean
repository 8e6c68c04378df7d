import Vsql.Rows.NewRows

/-!
# What UPDATE stores

Each row that the statement matched is found again under its new key.  A column that was set
holds its new value, but one whose new value only compared equal to the old one was not set.
-/

namespace Vsql.Rows

open Foundation

variable {t : BaseTable} {timeZone : TimeZone} {s : TableStorage}
  {stmt : UpdateStatementSearched} {row r : Row}

/-! ## The rows after the statement -/

structure Executed (stmt : UpdateStatementSearched) (timeZone : TimeZone) (t : BaseTable)
    (s : TableStorage) (rows : List Row) (u : Updated) (changes : List (Option (Row × Row)))
    (stored : TableStorage) (moved : List Row) : Prop where
  setOnce : (stmt.set.map (·.columnName)).Nodup
  matched : ∀ row ∈ rows, ∃ key r, MatchedRow stmt t s key r row
  keys : (rows.map fun row => t.objectKey row.forStorage).Nodup
  changed : List.Forall₂ (fun row c => stmt.change timeZone t row = .ok c) rows changes
  changes : u.changes = changes.reduceOption
  stores : StoresChanges t u.changes s stored [] moved
  writes : WritesMoved t moved stored u.storage
  message : u.message = s!"UPDATE {rows.length}"

theorem executed_of_execute {rows : List Row} {u : Updated} (ht : t.NoPeriods)
    (hs : s.Readable t) (hrows : stmt.matchedRows t s = .ok rows)
    (h : stmt.execute timeZone t s = .ok u) :
    ∃ changes stored moved, Executed stmt timeZone t s rows u changes stored moved := by
  obtain ⟨⟨⟩, hset, h⟩ := ok_of_bind h
  obtain ⟨rows', hrows', h⟩ := ok_of_bind h
  rw [hrows, Except.ok.injEq] at hrows'
  subst hrows'
  obtain ⟨-, -, h⟩ := ok_of_bind h
  obtain ⟨changes, hchanges, h⟩ := ok_of_bind h
  obtain ⟨⟨stored, moved⟩, hstored, h⟩ := ok_of_bind h
  obtain ⟨written, hwritten, h⟩ := ok_of_bind h
  obtain ⟨-, -, h⟩ := ok_of_bind h
  cases h
  obtain ⟨hmatched, hrowKeys⟩ := matchedRows_eq_ok hs hrows
  have hkeys := nodup_objectKey ht hmatched hrowKeys
  have hchanged := forall₂_of_mapM hchanges
  refine ⟨changes, stored, moved, (nodup_of_checkSetOnce hset).1, hmatched, hkeys, hchanged, rfl,
    ?_, writesMoved_of_foldlM hwritten, rfl⟩
  exact storesChanges_of_foldlM ((sublist_changes hchanged).nodup hkeys) hstored

/-- The key that the row with the key has after the statement. -/
def Updated.keyAfter (t : BaseTable) (u : Updated) (key : Bytes) : Bytes :=
  match u.changes.find? fun c => (t.objectKey c.1).toOption = some key with
  | some c => (t.objectKey c.2).toOption.getD key
  | none => key

section

variable {rows : List Row} {u : Updated} {changes : List (Option (Row × Row))}
  {stored : TableStorage} {moved : List Row} {key : Bytes}

theorem toOption_eq_some {x : Except Failure Bytes} {k : Bytes} :
    x.toOption = some k ↔ x = .ok k := by
  cases x <;> simp [Except.toOption]

theorem Executed.change_of_key (h : Executed stmt timeZone t s rows u changes stored moved)
    {c : Row × Row} (hc : c ∈ u.changes) (hrow : row ∈ rows)
    (hkey : t.objectKey c.1 = t.objectKey row.forStorage) :
    stmt.change timeZone t row = .ok (some c) := by
  rw [h.changes, List.reduceOption_mem_iff] at hc
  obtain ⟨row', hrow', hchange⟩ := exists_of_forall₂ h.changed _ hc
  obtain ⟨new, -, ⟨-, hnone⟩ | ⟨-, after, -, hsome⟩⟩ := change_eq_ok hchange
  · cases hnone
  · cases hsome
    obtain rfl := List.inj_on_of_nodup_map h.keys hrow' hrow hkey
    exact hchange

theorem Executed.mem_changes (h : Executed stmt timeZone t s rows u changes stored moved)
    (hrow : row ∈ rows) : ∃ c ∈ changes, stmt.change timeZone t row = .ok c :=
  exists_of_forall₂ h.changed.flip row hrow

/-- A row that is not modified keeps its key and what is stored under it. -/
theorem Executed.unchanged (h : Executed stmt timeZone t s rows u changes stored moved)
    (hrow : row ∈ rows) (hkey : t.objectKey row.forStorage = .ok key)
    (hchange : stmt.change timeZone t row = .ok none) :
    u.keyAfter t key = key ∧ stored.rows.get? key = s.rows.get? key := by
  have hnone : ∀ c ∈ u.changes, t.objectKey c.1 ≠ .ok key := by
    intro c hc hkey'
    have hsome := h.change_of_key hc hrow (hkey'.trans hkey.symm)
    rw [hchange] at hsome
    cases hsome
  have hfind : (u.changes.find? fun c => (t.objectKey c.1).toOption = some key) = none := by
    rw [List.find?_eq_none]
    intro c hc
    rw [decide_eq_true_eq, toOption_eq_some]
    exact hnone c hc
  refine ⟨?_, h.stores.others key hnone⟩
  rw [Updated.keyAfter, hfind]

theorem Executed.keyAfter_eq (h : Executed stmt timeZone t s rows u changes stored moved)
    (hrow : row ∈ rows) (hkey : t.objectKey row.forStorage = .ok key) {c : Row × Row}
    (hchange : stmt.change timeZone t row = .ok (some c)) :
    c ∈ u.changes ∧ t.objectKey c.1 = .ok key ∧ t.objectKey c.2 = .ok (u.keyAfter t key) := by
  have hmem : c ∈ u.changes := by
    obtain ⟨c', hc', hchange'⟩ := h.mem_changes hrow
    rw [hchange, Except.ok.injEq] at hchange'
    rw [h.changes, List.reduceOption_mem_iff, hchange']
    exact hc'
  have hbefore : c.1 = row.forStorage := by
    obtain ⟨new, -, ⟨-, hnone⟩ | ⟨-, after, -, hsome⟩⟩ := change_eq_ok hchange
    · cases hnone
    · cases hsome
      rfl
  have hold : t.objectKey c.1 = .ok key := hbefore ▸ hkey
  refine ⟨hmem, hold, ?_⟩
  cases hfind : u.changes.find? fun c => (t.objectKey c.1).toOption = some key with
  | none =>
      have hnot := List.find?_eq_none.mp hfind c hmem
      rw [decide_eq_true_eq, toOption_eq_some] at hnot
      exact absurd hold hnot
  | some c' =>
      have hfound := List.find?_some hfind
      rw [decide_eq_true_eq, toOption_eq_some] at hfound
      have hsame := h.change_of_key (List.mem_of_find?_eq_some hfind) hrow (hfound.trans hkey.symm)
      rw [hchange, Except.ok.injEq, Option.some.injEq] at hsame
      subst hsame
      obtain ⟨k, k', -, hk'⟩ := h.stores.keys c hmem
      rw [Updated.keyAfter, hfind]
      simp only [hk', Except.toOption, Option.getD_some]

theorem Executed.mem_moved (h : Executed stmt timeZone t s rows u changes stored moved)
    {c : Row × Row} (hc : c ∈ u.changes) (hmoves : t.objectKey c.1 ≠ t.objectKey c.2) :
    c ∈ u.changes.filter fun c => (t.objectKey c.1).toOption ≠ (t.objectKey c.2).toOption := by
  obtain ⟨k, k', hk, hk'⟩ := h.stores.keys c hc
  rw [hk, hk'] at hmoves
  rw [List.mem_filter]
  refine ⟨hc, ?_⟩
  simpa [hk, hk', Except.toOption] using hmoves

/-- What a change stores. -/
theorem Executed.written (h : Executed stmt timeZone t s rows u changes stored moved)
    {c : Row × Row} (hc : c ∈ u.changes) : ∃ k value, Written t s.transactionId c.2 k value ∧
      u.storage.rows.get? k = some value := by
  obtain ⟨k, k', hk, hk'⟩ := h.stores.keys c hc
  by_cases hmoves : t.objectKey c.1 = t.objectKey c.2
  · rw [hk, hk', Except.ok.injEq] at hmoves
    subst hmoves
    obtain ⟨value, hvalue, hget⟩ := h.stores.inPlace c hc k hk hk'
    exact ⟨k, value, hvalue, h.writes.kept k value hget⟩
  · have hmoved : c.2 ∈ moved := by
      rw [h.stores.moved]
      exact List.mem_map_of_mem (h.mem_moved hc hmoves)
    obtain ⟨k, value, hvalue, -, hget⟩ := h.writes.written c.2 hmoved
    exact ⟨k, value, h.stores.transactionId ▸ hvalue, hget⟩

/-- A row keeps its key, or has one that was free when every other row had been stored. -/
theorem Executed.keyAfter_cases (h : Executed stmt timeZone t s rows u changes stored moved)
    (ht : t.NoPeriods) (hrow : row ∈ rows) (hkey : t.objectKey row.forStorage = .ok key) :
    (u.keyAfter t key = key ∧ stored.rows.get? key ≠ none) ∨
      (stored.rows.get? (u.keyAfter t key) = none ∧
        ∃ c ∈ u.changes.filter fun c => (t.objectKey c.1).toOption ≠ (t.objectKey c.2).toOption,
          t.objectKey c.1 = .ok key ∧ t.objectKey c.2 = .ok (u.keyAfter t key)) := by
  obtain ⟨c, -, hchange⟩ := h.mem_changes hrow
  cases c with
  | none =>
      obtain ⟨hafter, hget⟩ := h.unchanged hrow hkey hchange
      obtain ⟨key', r, hmatched⟩ := h.matched row hrow
      obtain ⟨value, hvalue, -⟩ := hmatched.stored
      have hsame := hmatched.objectKey ht
      rw [hkey, Except.ok.injEq] at hsame
      subst hsame
      exact .inl ⟨hafter, by simp [hget, hvalue]⟩
  | some c =>
      obtain ⟨hmem, hold, hnew⟩ := h.keyAfter_eq hrow hkey hchange
      by_cases hmoves : t.objectKey c.1 = t.objectKey c.2
      · have hsame : u.keyAfter t key = key := by
          rw [hold, hnew, Except.ok.injEq] at hmoves
          exact hmoves.symm
        rw [hsame] at hnew
        obtain ⟨value, -, hget⟩ := h.stores.inPlace c hmem key hold hnew
        exact .inl ⟨hsame, by simp [hget]⟩
      · have hmoved := h.mem_moved hmem hmoves
        refine .inr ⟨?_, c, hmoved, hold, hnew⟩
        have hin : c.2 ∈ moved := by
          rw [h.stores.moved]
          exact List.mem_map_of_mem hmoved
        obtain ⟨k, value, hvalue, hfree, -⟩ := h.writes.written c.2 hin
        have hk := hvalue.objectKey
        rw [hnew, Except.ok.injEq] at hk
        exact hk ▸ hfree

theorem Executed.keyAfter_inj (h : Executed stmt timeZone t s rows u changes stored moved)
    (ht : t.NoPeriods) {row' : Row} {key' : Bytes} (hrow : row ∈ rows) (hrow' : row' ∈ rows)
    (hkey : t.objectKey row.forStorage = .ok key)
    (hkey' : t.objectKey row'.forStorage = .ok key')
    (hafter : u.keyAfter t key = u.keyAfter t key') : key = key' := by
  obtain ⟨hkeeps, hsome⟩ | ⟨hfree, c, hc, hold, hnew⟩ := h.keyAfter_cases ht hrow hkey
  · obtain ⟨hkeeps', -⟩ | ⟨hfree', -⟩ := h.keyAfter_cases ht hrow' hkey'
    · rw [← hkeeps, hafter, hkeeps']
    · rw [← hafter, hkeeps] at hfree'
      exact absurd hfree' hsome
  · obtain ⟨hkeeps', hsome'⟩ | ⟨-, c', hc', hold', hnew'⟩ := h.keyAfter_cases ht hrow' hkey'
    · rw [hafter, hkeeps'] at hfree
      exact absurd hfree hsome'
    · have hnodup := h.writes.nodup
      rw [h.stores.moved, List.nil_append, List.map_map] at hnodup
      have hsame : c = c' := List.inj_on_of_nodup_map hnodup hc hc' (by
        rw [Function.comp_apply, Function.comp_apply, hnew, hnew', hafter])
      rw [hsame, hold', Except.ok.injEq] at hold
      exact hold.symm

theorem Executed.keeps (h : Executed stmt timeZone t s rows u changes stored moved)
    (ht : t.NoPeriods) {c : Row × Row} (hc : c ∈ u.changes) :
    ∀ col ∈ t.columns, col.Keeps (c.2.value col.name.subEntityName) := by
  rw [h.changes, List.reduceOption_mem_iff] at hc
  obtain ⟨row, hrow, hchange⟩ := exists_of_forall₂ h.changed _ hc
  obtain ⟨key, r, hmatched⟩ := h.matched row hrow
  obtain ⟨new, hnew⟩ := changeOf_of_change ht h.setOnce hmatched hchange
  exact hnew.keeps

/-- The rows can be read again by the next statement. -/
theorem Executed.readable (h : Executed stmt timeZone t s rows u changes stored moved)
    (ht : t.NoPeriods) (hs : s.Readable t) : u.storage.Readable t := by
  intro k value hk
  have hwritten : ∀ c ∈ u.changes, ∀ tid, Written t tid c.2 k value → ∃ r, StoredRow t k value r :=
    fun c hc tid hvalue => by
      obtain ⟨r, hr, -⟩ := hvalue.storedRow (h.keeps ht hc)
      exact ⟨r, hr⟩
  by_cases hmoved : ∃ row ∈ moved, t.objectKey row = .ok k
  · obtain ⟨row, hrow, hkey⟩ := hmoved
    obtain ⟨k', value', hvalue', -, hget⟩ := h.writes.written row hrow
    have hsame := hvalue'.objectKey
    rw [hkey, Except.ok.injEq] at hsame
    subst hsame
    rw [hk, Option.some.injEq] at hget
    subst hget
    rw [h.stores.moved, List.nil_append] at hrow
    obtain ⟨c, hc, rfl⟩ := List.mem_map.mp hrow
    exact hwritten c (List.mem_filter.mp hc).1 _ hvalue'
  · rw [h.writes.others k fun row hrow hkey => hmoved ⟨row, hrow, hkey⟩] at hk
    by_cases hold : ∃ c ∈ u.changes, t.objectKey c.1 = .ok k
    · obtain ⟨c, hc, hkey⟩ := hold
      by_cases hinPlace : t.objectKey c.2 = .ok k
      · obtain ⟨value', hvalue', hget⟩ := h.stores.inPlace c hc k hkey hinPlace
        rw [hk, Option.some.injEq] at hget
        subst hget
        exact hwritten c hc _ hvalue'
      · rw [h.stores.erased c hc k hkey hinPlace] at hk
        cases hk
    · rw [h.stores.others k fun c hc hkey => hold ⟨c, hc, hkey⟩] at hk
      exact hs k value hk

/-- What a column of a row that was matched holds afterwards. -/
structure RowAfter (stmt : UpdateStatementSearched) (timeZone : TimeZone) (t : BaseTable)
    (row old new : Row) : Prop where
  others : ∀ col ∈ t.columns, col.name.subEntityName ∉ stmt.set.map (·.columnName) →
    t.isGenerated col.name.subEntityName = false →
    new.value col.name.id = old.value col.name.id
  assigned : ∀ clause ∈ stmt.set, ∃ col ∈ t.columns, col.name.subEntityName = clause.columnName ∧
    ∃ set, ClauseOf stmt timeZone t row clause col set ∧
      (t.isGenerated clause.columnName = false → new.value col.name.id =
        (set.map (readBack col)).getD (old.value col.name.id))

theorem rowAfter_of_unchanged (hnodup : (stmt.set.map (·.columnName)).Nodup) (old : Row)
    (h : stmt.change timeZone t row = .ok none) : RowAfter stmt timeZone t row old old := by
  obtain ⟨new, hset, ⟨hunmodified, -⟩ | ⟨-, after, -, hsome⟩⟩ := change_eq_ok h
  · have hassigns := assigns_of_foldlM hnodup hset
    refine ⟨fun col hcol _ _ => rfl, fun clause hclause => ?_⟩
    obtain ⟨col, hcol, hname, set, houtcome, -, hmodified⟩ := hassigns.assigned clause hclause
    refine ⟨col, hcol, hname, set, houtcome, fun _ => ?_⟩
    cases set with
    | none => rfl
    | some value =>
        rw [hmodified rfl] at hunmodified
        cases hunmodified
  · cases hsome

/-- The row is stored under the key. -/
def TableStorage.HasRow (t : BaseTable) (s : TableStorage) (key : Bytes) (r : Row) : Prop :=
  ∃ stored, s.rows.get? key = some stored ∧
    newRowFromBytes t.toTable stored.data stored.tid = .ok r

theorem TableStorage.HasRow.eq {r' : Row} (h : s.HasRow t key r) (h' : s.HasRow t key r') :
    r = r' := by
  obtain ⟨stored, hget, hread⟩ := h
  obtain ⟨stored', hget', hread'⟩ := h'
  rw [hget, Option.some.injEq] at hget'
  rw [← hget', hread, Except.ok.injEq] at hread'
  exact hread'

theorem MatchedRow.hasRow (h : MatchedRow stmt t s key r row) : s.HasRow t key r := by
  obtain ⟨stored, hget, hread⟩ := h.stored
  exact ⟨stored, hget, hread.read⟩

theorem Executed.rowAfter (h : Executed stmt timeZone t s rows u changes stored moved)
    (ht : t.NoPeriods) (hrow : row ∈ rows) (hmatched : MatchedRow stmt t s key r row) :
    ∃ new, u.storage.HasRow t (u.keyAfter t key) new ∧ RowAfter stmt timeZone t row r new := by
  have hkey := hmatched.objectKey ht
  obtain ⟨value, hget, hread⟩ := hmatched.stored
  obtain ⟨c, -, hchange⟩ := h.mem_changes hrow
  cases c with
  | none =>
      obtain ⟨hafter, hkept⟩ := h.unchanged hrow hkey hchange
      rw [← hkept] at hget
      have hget' := h.writes.kept key value hget
      rw [← congrArg u.storage.rows.get? hafter] at hget'
      exact ⟨r, ⟨value, hget', hread.read⟩, rowAfter_of_unchanged h.setOnce r hchange⟩
  | some c =>
      obtain ⟨new, hnew⟩ := changeOf_of_change ht h.setOnce hmatched hchange
      obtain ⟨hmem, -, hafter⟩ := h.keyAfter_eq hrow hkey hchange
      obtain ⟨k, value', hvalue', hget'⟩ := h.written hmem
      have hk := hvalue'.objectKey
      rw [hafter, Except.ok.injEq] at hk
      subst hk
      obtain ⟨r', hr', hvalues⟩ := hvalue'.storedRow hnew.keeps
      -- The old value was read back before.
      have hold : ∀ col ∈ t.columns,
          readBack col (row.value (columnId (stmt.rowTableId t) col.name.subEntityName)) =
            r.value col.name.id := by
        intro col hcol
        rw [hmatched.value ht hcol]
        exact hread.readBack col hcol
      refine ⟨r', ⟨value', hget', hr'.read⟩, ?_, ?_⟩
      · intro col hcol hset hgenerated
        rw [hvalues col hcol, hnew.value col hcol hgenerated, hnew.assigns.others _ hset]
        exact hold col hcol
      · intro clause hclause
        obtain ⟨col, hcol, hname, set, houtcome, hassigned, -⟩ :=
          hnew.assigns.assigned clause hclause
        refine ⟨col, hcol, hname, set, houtcome, fun hgenerated => ?_⟩
        rw [hvalues col hcol, hnew.value col hcol (hname ▸ hgenerated), ← setId_eq hname, hassigned]
        cases set with
        | none => exact setId_eq hname ▸ hold col hcol
        | some value => rfl

end

theorem readable_execute {u : Updated} (ht : t.NoPeriods) (hs : s.Readable t)
    (h : stmt.execute timeZone t s = .ok u) : u.storage.Readable t := by
  obtain ⟨-, -, hrest⟩ := ok_of_bind h
  obtain ⟨rows, hrows, -⟩ := ok_of_bind hrest
  obtain ⟨changes, stored, moved, hexecuted⟩ := executed_of_execute ht hs hrows h
  exact hexecuted.readable ht hs

/-! ## After the statement -/

/-- Where the rows that were matched are afterwards. -/
structure Afterwards (stmt : UpdateStatementSearched) (timeZone : TimeZone) (t : BaseTable)
    (s : TableStorage) (rows : List Row) (u : Updated) : Prop where
  rowAfter : ∀ row ∈ rows, ∃ old new, s.HasRow t (t.rowKey row) old ∧
    u.storage.HasRow t (u.keyAfter t (t.rowKey row)) new ∧ RowAfter stmt timeZone t row old new
  distinct : (rows.map fun row => u.keyAfter t (t.rowKey row)).Nodup
  message : u.message = s!"UPDATE {rows.length}"

theorem afterwards_of_noPeriods {rows : List Row} {u : Updated} (ht : t.NoPeriods)
    (hs : s.Readable t) (hrows : stmt.matchedRows t s = .ok rows)
    (h : stmt.execute timeZone t s = .ok u) : Afterwards stmt timeZone t s rows u := by
  obtain ⟨changes, stored, moved, hexecuted⟩ := executed_of_execute ht hs hrows h
  refine ⟨fun row hrow => ?_, ?_, hexecuted.message⟩
  · obtain ⟨key, r, hmatched⟩ := hexecuted.matched row hrow
    obtain ⟨new, hnew, hafter⟩ := hexecuted.rowAfter ht hrow hmatched
    exact ⟨r, new, hmatched.rowKey ▸ hmatched.hasRow, hmatched.rowKey ▸ hnew, hafter⟩
  · have hkey : ∀ row ∈ rows, t.objectKey row.forStorage = .ok (t.rowKey row) := by
      intro row hrow
      obtain ⟨key, r, hmatched⟩ := hexecuted.matched row hrow
      rw [hmatched.objectKey ht, hmatched.rowKey]
    have hnodup := (matchedRows_eq_ok hs hrows).2
    refine List.Nodup.map_on (fun row hrow row' hrow' hafter => ?_) hnodup.of_map
    exact List.inj_on_of_nodup_map hnodup hrow hrow'
      (hexecuted.keyAfter_inj ht hrow hrow' (hkey row hrow) (hkey row' hrow') hafter)

/-- The names of the columns do not matter where nothing is written. -/
theorem afterwards_of_not_rewrites {rows : List Row} {u : Updated} (hs : s.Readable t)
    (hrows : stmt.matchedRows t s = .ok rows) (h : stmt.execute timeZone t s = .ok u)
    (hrewrites : ∀ row ∈ rows, ¬stmt.Rewrites timeZone t row) :
    Afterwards stmt timeZone t s rows u := by
  obtain ⟨⟨⟩, hset, h⟩ := ok_of_bind h
  obtain ⟨rows', hrows', h⟩ := ok_of_bind h
  rw [hrows, Except.ok.injEq] at hrows'
  subst hrows'
  obtain ⟨-, -, h⟩ := ok_of_bind h
  obtain ⟨changes, hchanges, h⟩ := ok_of_bind h
  have hsetOnce := (nodup_of_checkSetOnce hset).1
  have hchanged := forall₂_of_mapM hchanges
  have hnone : ∀ c ∈ changes, c = none := by
    intro c hc
    obtain ⟨row, hrow, hchange⟩ := exists_of_forall₂ hchanged c hc
    exact change_of_not_rewrites hsetOnce hchange (hrewrites row hrow)
  have hreduced : changes.reduceOption = [] := by
    rw [List.eq_nil_iff_forall_not_mem]
    intro c hc
    cases hnone _ (List.reduceOption_mem_iff.mp hc)
  rw [hreduced] at h
  obtain ⟨start, hstored, h⟩ := ok_of_bind h
  cases hstored
  obtain ⟨written, hwritten, h⟩ := ok_of_bind h
  cases hwritten
  obtain ⟨-, -, h⟩ := ok_of_bind h
  cases h
  obtain ⟨hmatched, hnodup⟩ := matchedRows_eq_ok hs hrows
  refine ⟨fun row hrow => ?_, hnodup, rfl⟩
  obtain ⟨key, r, hrow'⟩ := hmatched row hrow
  have hhas : s.HasRow t (t.rowKey row) r := hrow'.rowKey ▸ hrow'.hasRow
  obtain ⟨c, hc, hchange⟩ := exists_of_forall₂ hchanged.flip row hrow
  obtain rfl := hnone c hc
  exact ⟨r, r, hhas, hhas, rowAfter_of_unchanged hsetOnce r hchange⟩

/-! ## What the statement was told to store -/

/-- The row holds the assigned values, and otherwise the values of the old row. -/
structure HoldsAssigned (stmt : UpdateStatementSearched) (timeZone : TimeZone) (t : BaseTable)
    (row old new : Row) : Prop where
  assigned : ∀ clause ∈ stmt.set, ∀ col ∈ t.columns,
    col.name.subEntityName = clause.columnName → t.isGenerated clause.columnName = false →
    ∃ raw value, clause.source row = .ok raw ∧ cast timeZone raw col.typ = .ok value ∧
      SameValue col.typ (new.value col.name.id) value
  others : ∀ col ∈ t.columns, col.name.subEntityName ∉ stmt.set.map (·.columnName) →
    t.isGenerated col.name.subEntityName = false →
    new.value col.name.id = old.value col.name.id

/-- Each of the rows that were matched is stored with its assigned values, and counted. -/
structure StoresAssigned (stmt : UpdateStatementSearched) (timeZone : TimeZone) (t : BaseTable)
    (s : TableStorage) (rows : List Row) (u : Updated) : Prop where
  stored : ∀ row ∈ rows, ∃ old new, s.HasRow t (t.rowKey row) old ∧
    u.storage.HasRow t (u.keyAfter t (t.rowKey row)) new ∧
    HoldsAssigned stmt timeZone t row old new
  distinct : (rows.map fun row => u.keyAfter t (t.rowKey row)).Nodup
  message : u.message = s!"UPDATE {rows.length}"

/-- A value that compares equal to the old value of its column is the old value. -/
def SkipsSameValues (stmt : UpdateStatementSearched) (timeZone : TimeZone) (t : BaseTable)
    (s : TableStorage) (rows : List Row) : Prop :=
  ∀ row ∈ rows, ∀ old, s.HasRow t (t.rowKey row) old →
    ∀ clause ∈ stmt.set, ∀ col ∈ t.columns,
    col.name.subEntityName = clause.columnName → t.isGenerated clause.columnName = false →
    ∀ raw, clause.source row = .ok raw →
    Value.compare timeZone (row.value (stmt.setId t clause)) raw = .ok .isEqual →
    ∃ value, cast timeZone raw col.typ = .ok value ∧ SameValue col.typ (old.value col.name.id) value

theorem truncateNanosecond_mod (nanosecond : Int) (precision : Nat) :
    truncateNanosecond nanosecond precision % 1000 = 0 := by
  have hunit : (10 : Int) ^ (9 - min precision 6) = 10 ^ (6 - min precision 6) * 1000 := by
    rw [show 9 - min precision 6 = (6 - min precision 6) + 3 by omega, pow_add]
    norm_num
  unfold truncateNanosecond
  rw [hunit, ← mul_assoc]
  exact Int.mul_emod_left _ _

theorem nanosecond_castDatetime {time x : Time} {typ : DataType} {value : Value}
    (h : castDatetime timeZone time typ = .ok value) (hx : value.v = some (.time x)) :
    x.t.nanosecond % 1000 = 0 := by
  unfold castDatetime at h
  dsimp only at h
  have hcontent : ∀ {newTyp u}, Value.ofContent newTyp (.time u) = .ok value → x = u := by
    intro newTyp u hu
    have hv := (Value.ofContent_eq_ok hu).2
    rwa [hx, Option.some.injEq, Content.time.injEq] at hv
  split at h
  · rw [hcontent h]
    exact truncateNanosecond_mod _ _
  · rw [hcontent h]
    exact truncateNanosecond_mod _ _
  · split at h
    · rw [hcontent h]
      exact truncateNanosecond_mod _ _
    · cases h
  · split at h
    · rw [hcontent h]
      exact truncateNanosecond_mod _ _
    · cases h
  · cases h

/-- A cast to a datetime type keeps at most six digits after the second. -/
theorem has_cast {col : Column} {raw value : Value} (hkeeps : col.Keeps value)
    (hmicroseconds : ∀ x, raw.v = some (.time x) → x.t.nanosecond % 1000 = 0)
    (hcast : cast timeZone raw col.typ = .ok value) : col.Has value := by
  refine ⟨hkeeps, fun x hx => ?_⟩
  have hdatetime : col.typ.typ.isDatetime := by
    rw [← (hkeeps.storedAs hx).typ]
    exact (value.fits _ hx).1
  unfold cast at hcast
  split at hcast
  · cases hcast
    exact hmicroseconds x hx
  split at hcast
  · next hstring =>
      cases ht : col.typ.typ <;>
        simp [ht, SqlType.isDatetime, SqlType.isString] at hdatetime hstring
  split at hcast
  · next hnumber =>
      cases ht : col.typ.typ <;>
        simp [ht, SqlType.isDatetime, SqlType.isNumber] at hdatetime hnumber
  split at hcast
  · cases hcast
    exact hmicroseconds x hx
  split at hcast
  · next time htime =>
      split at hcast
      · split at hcast
        · cases hcast
          exact hmicroseconds x hx
        · exact nanosecond_castDatetime hcast hx
      · cases hcast
  · cases hcast

/-- The names of the columns matter only where a row is written back. -/
theorem update_stores_iff (stmt : UpdateStatementSearched) (timeZone : TimeZone) (t : BaseTable)
    (s : TableStorage) (hs : s.Readable t) (rows : List Row)
    (hrows : stmt.matchedRows t s = .ok rows)
    (ht : (∃ row ∈ rows, stmt.Rewrites timeZone t row) → t.NoPeriods) (u : Updated)
    (h : stmt.execute timeZone t s = .ok u) :
    StoresAssigned stmt timeZone t s rows u ↔ SkipsSameValues stmt timeZone t s rows := by
  have hafterwards : Afterwards stmt timeZone t s rows u := by
    by_cases hrewrites : ∃ row ∈ rows, stmt.Rewrites timeZone t row
    · exact afterwards_of_noPeriods (ht hrewrites) hs hrows h
    · refine afterwards_of_not_rewrites hs hrows h fun row hrow hrewrite => ?_
      exact hrewrites ⟨row, hrow, hrewrite⟩
  constructor
  · intro hstores row hrow old hold clause hclause col hcol hname hgenerated raw hraw hcompare
    obtain ⟨old', new, hold', hnew, hassigned⟩ := hstores.stored row hrow
    obtain ⟨old'', new', hold'', hnew', hafter⟩ := hafterwards.rowAfter row hrow
    obtain rfl := hold.eq hold''
    obtain rfl := hnew.eq hnew'
    obtain ⟨col', hcol', hname', set, houtcome, hvalue⟩ := hafter.assigned clause hclause
    obtain rfl := t.eq_of_subEntityName hcol' hcol (hname'.trans hname.symm)
    have hnone : set = none := by
      cases houtcome with
      | generated | skipped => rfl
      | assigned raw' value _ hraw' hcompare' =>
          rw [hraw, Except.ok.injEq] at hraw'
          exact absurd (hraw' ▸ hcompare) hcompare'
    subst hnone
    obtain ⟨raw', w, hraw', hcast, hsame⟩ :=
      hassigned.assigned clause hclause col' hcol hname hgenerated
    rw [hraw, Except.ok.injEq] at hraw'
    subst hraw'
    rw [hvalue hgenerated] at hsame
    exact ⟨w, hcast, hsame⟩
  · intro hskips
    refine ⟨fun row hrow => ?_, hafterwards.distinct, hafterwards.message⟩
    obtain ⟨old, new, hold, hnew, hafter⟩ := hafterwards.rowAfter row hrow
    refine ⟨old, new, hold, hnew, ?_, hafter.others⟩
    intro clause hclause col hcol hname hgenerated
    obtain ⟨col', hcol', hname', set, houtcome, hvalue⟩ := hafter.assigned clause hclause
    obtain rfl := t.eq_of_subEntityName hcol' hcol (hname'.trans hname.symm)
    rw [hvalue hgenerated]
    cases houtcome with
    | generated hgenerated' =>
        rw [hgenerated] at hgenerated'
        cases hgenerated'
    | skipped raw _ hraw hcompare =>
        obtain ⟨w, hcast, hsame⟩ :=
          hskips row hrow old hold clause hclause col' hcol hname hgenerated raw hraw hcompare
        exact ⟨raw, w, hraw, hcast, hsame⟩
    | assigned raw w _ hraw _ hcast hkeeps =>
        have hhas := has_cast hkeeps (clause.microseconds row raw hraw) hcast
        exact ⟨raw, w, hraw, hcast, sameValue_readBack hhas⟩

/-! ## The table T (A VARCHAR(5)) -/

def textTable : BaseTable where
  name := { catalogName := ['M'], schemaName := ['P'], entityName := ['T'] }
  columns := [
    { name :=
        { catalogName := ['M'], schemaName := ['P'], entityName := ['T'], subEntityName := ['A'] }
      typ := { typ := .varchar, size := 5 }, notNull := false, scale_le := Column.zero_scale_le }]
  name_customId := Identifier.customId_nil
  name_subEntityName := Identifier.customId_nil
  name_entityName := Table.entityName_ne
  column_name := by decide
  nodup := by decide
  columns_le := by decide
  id := 1
  primaryKey := []
  generated := []
  generated_mem := by simp
  alwaysIdentity := []
  verify := fun _ => .ok ()

def textValue (x : Bytes) : Value :=
  ⟨{ typ := .varchar, size := 5 }, some (.string x), by simp [Content.Fits, SqlType.isString]⟩

def textRow (x : Bytes) : Row where
  id := [1]
  tid := 1
  data := OrderedMap.setAll [(['A'], textValue x)] .empty

def textKey : Bytes := rowKeyPrefix 1 ++ [1]

def textStored (x : Bytes) : Stored :=
  ⟨1, [0, 1, 1, 0, 1, 0, 0, 0, 0, UInt8.ofNat x.length] ++ x⟩

def textStorage (x : Bytes) : TableStorage where
  rows := OrderedMap.setAll [(textKey, textStored x)] .empty
  transactionId := 2
  pageSize := ⟨4096, by decide⟩
  concurrent := fun _ => .ok ()

/-- UPDATE T SET A = x -/
def setText (x : Bytes) : UpdateStatementSearched where
  set := [{ columnName := ['A'], source := fun _ => .ok (textValue x), isDefault := false
            microseconds := by
              rintro row v ⟨⟩ y hy
              cases hy }]
  condition := fun _ => .ok true

theorem noPeriods_textTable : textTable.NoPeriods := by
  unfold Table.NoPeriods
  decide

theorem readable_textStorage : (textStorage [97, 32]).Readable textTable := by
  intro key stored hget
  have hentry : (textStorage [97, 32]).rows.get? key =
      if key = textKey then some (textStored [97, 32]) else none :=
    OrderedMap.get?_set _ _ _ _
  rw [hentry] at hget
  split at hget
  · next hkey =>
      cases hget
      subst hkey
      have hwritten : Written textTable 1 (textRow [97, 32]) textKey (textStored [97, 32]) :=
        ⟨rfl, by decide, rfl, [1], rfl, rfl⟩
      have hkeeps : ∀ col ∈ textTable.columns,
          col.Keeps ((textRow [97, 32]).value col.name.subEntityName) := by
        simp only [textTable, List.mem_singleton, forall_eq]
        exact ⟨fun hnull => ⟨hnull, rfl, fun _ => rfl⟩, fun h => by cases h⟩
      obtain ⟨r, hr, -⟩ := hwritten.storedRow hkeeps
      exact ⟨r, hr⟩
  · cases hget

theorem update_stores_iff_text : ∃ rows u,
    (setText [98]).matchedRows textTable (textStorage [97, 32]) = .ok rows ∧
    (setText [98]).execute noTimeZone textTable (textStorage [97, 32]) = .ok u ∧
    (StoresAssigned (setText [98]) noTimeZone textTable (textStorage [97, 32]) rows u ↔
      SkipsSameValues (setText [98]) noTimeZone textTable (textStorage [97, 32]) rows) := by
  refine ⟨_, _, rfl, rfl, ?_⟩
  exact update_stores_iff _ _ _ _ readable_textStorage _ rfl (fun _ => noPeriods_textTable) _ rfl

/-- UPDATE T SET A = 'a' leaves 'a ' in the row, which compares equal. -/
theorem not_storesAssigned_padded : ∃ rows u,
    (setText [97]).matchedRows textTable (textStorage [97, 32]) = .ok rows ∧
    (setText [97]).execute noTimeZone textTable (textStorage [97, 32]) = .ok u ∧
    rows.length = 1 ∧
    ¬StoresAssigned (setText [97]) noTimeZone textTable (textStorage [97, 32]) rows u := by
  refine ⟨_, _, rfl, rfl, rfl, fun h => ?_⟩
  obtain ⟨old, new, -, ⟨stored, hget, hread⟩, hholds⟩ := h.stored _ (List.mem_singleton.mpr rfl)
  have hstored : stored = textStored [97, 32] := (Option.some.inj hget).symm
  subst hstored
  let col := textTable.columns.get ⟨0, by decide⟩
  obtain ⟨raw, value, hraw, hcast, hsame⟩ := hholds.assigned _ (List.mem_singleton.mpr rfl) col
    (List.get_mem _ _) rfl rfl
  cases hraw
  have hassigned : Value.ofContent { typ := .varchar, size := 1 } (.string [97]) = .ok value :=
    hcast
  have hvalue : value.v = some (.string [97]) := (Value.ofContent_eq_ok hassigned).2
  have hold : (new.value col.name.id).v = some (.string [97, 32]) := by
    have hr' := Except.ok.inj hread
    rw [← hr']
    rfl
  have hcontent : ([97, 32] : Bytes) = [97] := hsame.content _ hold _ hvalue
  exact absurd hcontent (by decide)

end Vsql.Rows
