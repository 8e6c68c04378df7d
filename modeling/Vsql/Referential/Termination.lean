import Mathlib.Data.List.Dedup
import Mathlib.Data.List.Forall2
import Vsql.Referential.Matching

/-!
# The end of the referential actions

An action that deletes a row, or that gives a column a distinct value, leaves less
for the actions after it.  If a change only has actions when it does one of these,
each round makes the following potential smaller: what the actions can still do,
as often as there can be batches in a round, and the batches that are pending.
-/

namespace Vsql.Referential

open Foundation

variable {catalog : Catalog} {tz : TimeZone} {s s' : State}

/-! ## What the actions can still do -/

/-- The columns of a table that actions can update. -/
def Table.siteColumns (t : Table) : List String :=
  ((t.foreignKeys.filter (·.updates)).flatMap (·.columns)).dedup

def Catalog.siteColumns (catalog : Catalog) (name : String) : List String :=
  match catalog.table? name with
  | some t => t.siteColumns
  | none => []

def weight (catalog : Catalog) (s : State) : Nat :=
  (s.rows.keys.map fun k => remaining (catalog.siteColumns k.1) (s.sites.of k)).sum

/-- The rows are stored under their own keys. -/
def OwnKeys (catalog : Catalog) (rows : OrderedMap SiteKey Row) : Prop :=
  ∀ e ∈ rows.entries, ∃ t, catalog.table? e.1.1 = some t ∧ e.1 = t.siteKey e.2

/-- The rows are stored under their own keys, and the sites are those of the rows. -/
structure Stored (catalog : Catalog) (s : State) : Prop where
  key : OwnKeys catalog s.rows
  site : ∀ e ∈ s.rows.entries, ∀ c v, (s.sites.of e.1).get? c = some v →
    c ∈ catalog.siteColumns e.1.1 ∧ e.2.get c = v

theorem table?_of_mem {t : Table} (h : t ∈ catalog.tables) :
    catalog.table? t.name = some t := by
  have hnodup := catalog.nodup
  unfold Catalog.table?
  generalize catalog.tables = tables at h hnodup
  induction tables with
  | nil => cases h
  | cons t' tables ih =>
      rw [List.map_cons, List.nodup_cons] at hnodup
      obtain rfl | h := List.mem_cons.mp h
      · simp
      · have hne : t'.name ≠ t.name := by
          intro heq
          exact hnodup.1 (heq ▸ List.mem_map_of_mem h)
        rw [List.find?_cons_of_neg (by simpa using hne)]
        exact ih h hnodup.2

theorem siteColumns_eq {t : Table} (h : t ∈ catalog.tables) :
    catalog.siteColumns t.name = t.siteColumns := by
  rw [Catalog.siteColumns, table?_of_mem h]

theorem mem_siteColumns {t : Table} {key : ForeignKey} {c : String} (hkey : key ∈ t.foreignKeys)
    (hupdates : key.updates = true) (hc : c ∈ key.columns) : c ∈ t.siteColumns := by
  rw [Table.siteColumns, List.mem_dedup, List.mem_flatMap]
  exact ⟨key, List.mem_filter.mpr ⟨hkey, hupdates⟩, hc⟩

theorem not_generated {t : Table} {c : String} (h : c ∈ t.siteColumns) : c ∉ t.generated := by
  rw [Table.siteColumns, List.mem_dedup, List.mem_flatMap] at h
  obtain ⟨key, hkey, hc⟩ := h
  rw [List.mem_filter] at hkey
  exact t.notGenerated key hkey.1 hkey.2 c hc

/-! ## The changes of one action -/

/-- The change deletes the row, or gives a column that actions can update a distinct
value. -/
def RowChange.IsDistinct (tz : TimeZone) (siteColumns : List String) : RowChange → Prop
  | .delete _ => True
  | .update old new => ∃ c ∈ siteColumns, isDistinct tz (old.get c) (new.get c) = .ok true

/-- The changes of an action, each of another row. -/
structure Batch (t : Table) (columns : List String) (changes : List RowChange) (s : State) :
    Prop where
  nodup : (oldKeys t changes).Nodup
  old : ∀ c ∈ changes, (t.siteKey c.old, c.old) ∈ s.rows.entries
  updates : ∀ old new, .update old new ∈ changes → (∀ c ∈ columns, c ∈ t.siteColumns) ∧
    ∀ c, c ∉ columns → c ∉ t.generated → new.get c = old.get c

section Batch

variable {t : Table} {columns : List String} {changes : List RowChange}
  {updated : List (SiteKey × OrderedMap String Value)}

theorem mem_written {e : SiteKey × Row} (h : e ∈ written t changes) :
    ∃ old new, .update old new ∈ changes ∧ e = (t.siteKey new, new) := by
  obtain ⟨c, hc, he⟩ := List.mem_filterMap.mp h
  cases c with
  | delete old => cases he
  | update old new =>
      cases he
      exact ⟨old, new, hc, rfl⟩

theorem siteKey_written {k : SiteKey} (h : k ∈ (written t changes).map Prod.fst) :
    k.1 = t.name := by
  obtain ⟨e, he, rfl⟩ := List.mem_map.mp h
  obtain ⟨old, new, -, rfl⟩ := mem_written he
  rfl

theorem siteKey_oldKeys {k : SiteKey} (h : k ∈ oldKeys t changes) : k.1 = t.name := by
  obtain ⟨c, -, rfl⟩ := List.mem_map.mp h
  rfl

/-- The sites before a batch, and after it. -/
structure Batch.Sites (t : Table) (columns : List String) (changes : List RowChange)
    (tz : TimeZone) (updated : List (SiteKey × OrderedMap String Value))
    (s s' : State) : Prop where
  rows : s'.rows.entries.Perm
    (s.rows.entries.filter (·.1 ∉ oldKeys t changes) ++ written t changes)
  sites : newSites tz t columns s.sites changes = .ok updated
  updated : ∀ e ∈ updated, s'.sites.of e.1 = e.2
  other : ∀ k, k ∉ oldKeys t changes → k ∉ (written t changes).map Prod.fst →
    s'.sites.of k = s.sites.of k

theorem Batch.Sites.not_mem_written (h : Batch.Sites t columns changes tz updated s s')
    {k : SiteKey}
    (hk : k ∈ (s.rows.entries.filter (·.1 ∉ oldKeys t changes)).map Prod.fst) :
    k ∉ (written t changes).map Prod.fst := by
  have hnodup := (h.rows.map Prod.fst).nodup_iff.mp s'.rows.nodup
  rw [List.map_append, List.nodup_append'] at hnodup
  exact hnodup.2.2 hk

theorem Batch.stored (hbatch : Batch t columns changes s)
    (hsites : Batch.Sites t columns changes tz updated s s') (ht : t ∈ catalog.tables)
    (hstored : Stored catalog s) : Stored catalog s' := by
  constructor
  · intro e he
    obtain he | he := List.mem_append.mp (hsites.rows.mem_iff.mp he)
    · exact hstored.key e (List.mem_filter.mp he).1
    · obtain ⟨old, new, -, rfl⟩ := mem_written he
      exact ⟨t, table?_of_mem ht, rfl⟩
  · intro e he c v hc
    obtain he | he := List.mem_append.mp (hsites.rows.mem_iff.mp he)
    · have hkept := List.mem_filter.mp he
      rw [hsites.other e.1 (by simpa using hkept.2)
        (hsites.not_mem_written (List.mem_map_of_mem he))] at hc
      exact hstored.site e hkept.1 c v hc
    · obtain ⟨old, new, hchange, rfl⟩ := mem_written he
      obtain ⟨after, hafter, hsite⟩ := newSites_mem hsites.sites old new hchange
      obtain ⟨hcolumns, hrest⟩ := hbatch.updates old new hchange
      have hname : (t.siteKey new).1 = t.name := rfl
      rw [hsites.updated _ hafter, (updateSites_eq_ok hsite).1 c] at hc
      rw [hname, siteColumns_eq ht]
      split at hc
      · next hmem => exact ⟨hcolumns c hmem, Option.some.inj hc⟩
      · next hmem =>
          obtain ⟨hcolumn, hold⟩ := hstored.site _ (hbatch.old _ hchange) c v hc
          have hcolumn' : c ∈ t.siteColumns := by
            rw [← siteColumns_eq ht]
            exact hcolumn
          exact ⟨hcolumn', by rw [hrest c hmem (not_generated hcolumn')]; exact hold⟩

/-- A distinct value is one of a column that no action has updated. -/
theorem Batch.uses (hbatch : Batch t columns changes s)
    (hsites : newSites tz t columns s.sites changes = .ok updated)
    (hstored : Stored catalog s) {change : RowChange} (hmem : change ∈ changes)
    (hdistinct : change.IsDistinct tz t.siteColumns) :
    change.Uses t columns t.siteColumns s.sites := by
  cases change with
  | delete old => trivial
  | update old new =>
      obtain ⟨c, hc, hdistinct⟩ := hdistinct
      obtain ⟨-, hrest⟩ := hbatch.updates old new hmem
      obtain ⟨after, -, hsite⟩ := newSites_mem hsites old new hmem
      have hcolumn : c ∈ columns := by
        by_contra hnot
        rw [hrest c hnot (not_generated hc)] at hdistinct
        exact isDistinct_self tz _ hdistinct
      refine ⟨c, hcolumn, hc, ?_⟩
      cases hprevious : (s.sites.of (t.siteKey old)).get? c with
      | none => rfl
      | some previous =>
          have hvalue : old.get c = previous :=
            (hstored.site _ (hbatch.old _ hmem) c previous hprevious).2
          have hsame := (updateSites_eq_ok hsite).2 c hcolumn previous hprevious
          rw [← hvalue, hdistinct] at hsame
          cases hsame

theorem Batch.weight (hbatch : Batch t columns changes s)
    (hsites : Batch.Sites t columns changes tz updated s s') (ht : t ∈ catalog.tables)
    (hstored : Stored catalog s) :
    weight catalog s' ≤ weight catalog s ∧
      ((∃ c ∈ changes, c.IsDistinct tz t.siteColumns) → weight catalog s' < weight catalog s) := by
  have hold : ∀ k ∈ oldKeys t changes, k ∈ s.rows.keys := by
    intro k hk
    obtain ⟨c, hc, rfl⟩ := List.mem_map.mp hk
    exact List.mem_map_of_mem (hbatch.old c hc)
  have hbefore : Referential.weight catalog s =
      (((s.rows.entries.filter (·.1 ∉ oldKeys t changes)).map Prod.fst).map fun k =>
        remaining (catalog.siteColumns k.1) (s.sites.of k)).sum +
      ((oldKeys t changes).map fun k => remaining t.siteColumns (s.sites.of k)).sum := by
    rw [Referential.weight, ((perm_keys hbatch.nodup hold).map _).sum_nat, List.map_append,
      List.sum_append]
    congr 2
    refine List.map_congr_left fun k hk => ?_
    rw [siteKey_oldKeys hk, siteColumns_eq ht]
  have hafter : Referential.weight catalog s' =
      (((s.rows.entries.filter (·.1 ∉ oldKeys t changes)).map Prod.fst).map fun k =>
        remaining (catalog.siteColumns k.1) (s.sites.of k)).sum +
      (updated.map fun e => remaining t.siteColumns e.2).sum := by
    rw [Referential.weight, OrderedMap.keys, ((hsites.rows.map Prod.fst).map _).sum_nat,
      List.map_append, List.map_append, List.sum_append, ← newSites_keys hsites.sites]
    congr 2
    · refine List.map_congr_left fun k hk => ?_
      have hkept : k ∉ oldKeys t changes := by
        obtain ⟨e, he, rfl⟩ := List.mem_map.mp hk
        simpa using (List.mem_filter.mp he).2
      rw [hsites.other k hkept (hsites.not_mem_written hk)]
    · rw [List.map_map]
      refine List.map_congr_left fun e he => ?_
      have hname : e.1.1 = t.name := by
        have hwritten : e.1 ∈ (written t changes).map Prod.fst := by
          rw [← newSites_keys hsites.sites]
          exact List.mem_map_of_mem he
        exact siteKey_written hwritten
      rw [Function.comp_apply, hsites.updated e he, hname, siteColumns_eq ht]
  obtain ⟨hle, hlt⟩ := newSites_remaining t.siteColumns hsites.sites
  rw [hbefore, hafter]
  refine ⟨by omega, ?_⟩
  rintro ⟨c, hc, hdistinct⟩
  have := hlt ⟨c, hc, hbatch.uses hsites.sites hstored hc hdistinct⟩
  omega

theorem Batch.length_rows (hbatch : Batch t columns changes s)
    (hsites : Batch.Sites t columns changes tz updated s s') :
    s'.rows.entries.length ≤ s.rows.entries.length := by
  have hold : ∀ k ∈ oldKeys t changes, k ∈ s.rows.keys := by
    intro k hk
    obtain ⟨c, hc, rfl⟩ := List.mem_map.mp hk
    exact List.mem_map_of_mem (hbatch.old c hc)
  have hbefore := (perm_keys hbatch.nodup hold).length_eq
  have hafter := hsites.rows.length_eq
  have hwritten : (written t changes).length ≤ (oldKeys t changes).length := by
    rw [oldKeys, List.length_map]
    exact List.length_filterMap_le _ _
  rw [OrderedMap.keys, List.length_map, List.length_append, List.length_map] at hbefore
  rw [List.length_append] at hafter
  omega

end Batch

/-- What an action has done when it has changed rows. -/
structure Acted (catalog : Catalog) (tz : TimeZone) (name : String)
    (changes : List RowChange) (s s' : State) : Prop where
  pending : s'.pending = (name, changes) :: s.pending
  stored : Stored catalog s'
  weight_le : weight catalog s' ≤ weight catalog s
  weight_lt : (∃ c ∈ changes, c.IsDistinct tz (catalog.siteColumns name)) →
    weight catalog s' < weight catalog s
  rows : s'.rows.entries.length ≤ s.rows.entries.length
  old : s'.old.length ≤ s.old.length + s.rows.entries.length

theorem Stored.key_eq {t : Table} (hstored : Stored catalog s) (ht : t ∈ catalog.tables) :
    ∀ e ∈ s.rows.entries, e.1.1 = t.name → e.1 = t.siteKey e.2 := by
  intro e he hname
  obtain ⟨t', ht', hkey⟩ := hstored.key e he
  rw [hname, table?_of_mem ht] at ht'
  rwa [← Option.some.inj ht'] at hkey

/-- The changes that an action makes to the matching rows. -/
theorem batch_of_mapM {round : Round} {referencing : Table} {key : ForeignKey}
    {types : List SqlType} {changes newChanges : List RowChange}
    (hmem : referencing ∈ catalog.tables) (hkey : key ∈ referencing.foreignKeys)
    (hstored : Stored catalog s)
    (h : (matchingRows tz key referencing types (keyChanges tz key types changes).keys
        s.rows).mapM (actOnRow round tz referencing key types (keyChanges tz key types changes)) =
      .ok newChanges) :
    Batch referencing key.columns newChanges s ∧
      newChanges.length ≤ s.rows.entries.length := by
  obtain ⟨hnodup, hlength⟩ := @matchingRows_siteKeys tz key referencing types
    (keyChanges tz key types changes).keys s.rows (hstored.key_eq hmem)
  have hrows := (List.forall₂_and_left _ _).mpr
    ⟨fun row hrow => mem_matchingRows hrow, forall₂_of_mapM h⟩
  have hold := hrows.imp fun row change h =>
    (actOnRow_eq_ok h.2 (keyChanges_sound _ _ _ _) h.1.1).1.symm
  rw [← List.forall₂_map_right_iff, List.forall₂_eq_eq_eq] at hold
  have hkeys : oldKeys referencing newChanges =
      (newChanges.map RowChange.old).map referencing.siteKey := by
    rw [List.map_map]
    rfl
  refine ⟨⟨?_, fun c hc => ?_, fun old new hc => ?_⟩, ?_⟩
  · rw [hkeys, ← hold]
    exact hnodup
  · obtain ⟨k, hk, hname⟩ := (mem_matchingRows (hold ▸ List.mem_map_of_mem hc)).2
    rwa [← hstored.key_eq hmem _ hk hname]
  · obtain ⟨row, -, hrow, hact⟩ := exists_of_forall₂ hrows _ hc
    obtain ⟨rfl, hupdate⟩ := actOnRow_eq_ok hact (keyChanges_sound _ _ _ _) hrow.1
    obtain ⟨hupdates, hrest⟩ := hupdate new rfl
    exact ⟨fun c => mem_siteColumns hkey hupdates, hrest⟩
  · rw [← List.length_map (f := RowChange.old), ← hold]
    exact hlength

theorem acted_of_actOnKey {round : Round} {table referencing : Table} {key : ForeignKey}
    {changes : List RowChange} (hmem : referencing ∈ catalog.tables)
    (hkey : key ∈ referencing.foreignKeys) (hstored : Stored catalog s)
    (h : actOnKey round tz table changes referencing key s = .ok s') :
    s' = s ∨ (∃ c ∈ changes, c.Causes tz key
        (foreignKeyTypes referencing key.columns table key.referencedColumns)) ∧
      ∃ newChanges, Acted catalog tz referencing.name newChanges s s' := by
  unfold actOnKey at h
  dsimp only at h
  generalize foreignKeyTypes referencing key.columns table key.referencedColumns = types at h
  split at h
  · cases h
    exact .inl rfl
  next hkeys =>
  split at h
  · cases h
  split at h
  · cases h
    exact .inl rfl
  obtain ⟨newChanges, hchanges, h⟩ := ok_of_bind h
  obtain ⟨sites, hadd, h⟩ := ok_of_bind h
  obtain ⟨⟨rows, moved⟩, hstore, h⟩ := ok_of_bind h
  obtain ⟨rows', hwrite, h⟩ := ok_of_bind h
  obtain ⟨hbatch, hlength⟩ := batch_of_mapM hmem hkey hstored hchanges
  have hperm := perm_stored hstore hwrite hbatch.nodup
  have hwritten : ((written referencing newChanges).map Prod.fst).Nodup := by
    have hnodup := (hperm.map Prod.fst).nodup_iff.mp rows'.nodup
    rw [List.map_append, List.nodup_append'] at hnodup
    exact hnodup.2.1
  obtain ⟨updated, hupdated, hsites, hother⟩ := add_eq_ok hadd hwritten
  have hsites' : Batch.Sites referencing key.columns newChanges tz updated s s' := by
    cases h
    exact ⟨hperm, hupdated, hsites, hother⟩
  obtain ⟨hle, hlt⟩ := hbatch.weight hsites' hmem hstored
  refine .inr ⟨exists_causes hkeys, newChanges, ?_, hbatch.stored hsites' hmem hstored,
    hle, ?_, hbatch.length_rows hsites', ?_⟩
  · cases h
    rfl
  · rw [siteColumns_eq hmem]
    exact hlt
  · cases h
    simpa using hlength

/-! ## The potential -/

open Classical in
noncomputable def batchWeight (catalog : Catalog) (tz : TimeZone)
    (b : String × List RowChange) : Nat :=
  1 + if ∃ c ∈ b.2, c.IsDistinct tz (catalog.siteColumns b.1) then catalog.keys.length else 0

noncomputable def potential (catalog : Catalog) (tz : TimeZone) (s : State) : Nat :=
  (catalog.keys.length + 1) * weight catalog s + (s.pending.map (batchWeight catalog tz)).sum

theorem potential_nil (catalog : Catalog) (tz : TimeZone) (s : State) :
    potential catalog tz { s with pending := [] } =
      (catalog.keys.length + 1) * weight catalog s := rfl

theorem potential_cons {b : String × List RowChange} {rest : List (String × List RowChange)}
    (h : s.pending = b :: rest) :
    potential catalog tz s =
      potential catalog tz { s with pending := rest } + batchWeight catalog tz b := by
  have hweight : weight catalog { s with pending := rest } = weight catalog s := rfl
  rw [potential, potential, h, List.map_cons, List.sum_cons, hweight, Nat.add_assoc,
    Nat.add_comm (batchWeight catalog tz b)]

theorem Acted.potential_le {name : String} {changes : List RowChange}
    (h : Acted catalog tz name changes s s') :
    potential catalog tz s' ≤ potential catalog tz s + 1 := by
  rw [potential, potential, h.pending, List.map_cons, List.sum_cons, batchWeight]
  split
  · next hdistinct =>
      have hmul : (catalog.keys.length + 1) * (weight catalog s' + 1) ≤
          (catalog.keys.length + 1) * weight catalog s :=
        Nat.mul_le_mul_left _ (h.weight_lt hdistinct)
      rw [Nat.mul_add, Nat.mul_one] at hmul
      omega
  · have hmul : (catalog.keys.length + 1) * weight catalog s' ≤
        (catalog.keys.length + 1) * weight catalog s :=
      Nat.mul_le_mul_left _ h.weight_le
    omega

/-- What the actions of some keys for one batch have done. -/
structure ActedAll (catalog : Catalog) (tz : TimeZone) (table : Table)
    (changes : List RowChange) (keys : List (Table × ForeignKey)) (s s' : State) : Prop where
  stored : Stored catalog s'
  potential_le : potential catalog tz s' ≤ potential catalog tz s + keys.length
  causes : s' = s ∨ ∃ k ∈ keys, ∃ c ∈ changes, c.Causes tz k.2
    (foreignKeyTypes k.1 k.2.columns table k.2.referencedColumns)
  rows : s'.rows.entries.length ≤ s.rows.entries.length
  old : s'.old.length ≤ s.old.length + keys.length * s.rows.entries.length

theorem actedAll_of_foldlM {round : Round} {table : Table} {changes : List RowChange}
    {keys : List (Table × ForeignKey)}
    (hkeys : ∀ k ∈ keys, k.1 ∈ catalog.tables ∧ k.2 ∈ k.1.foreignKeys)
    (hstored : Stored catalog s)
    (h : keys.foldlM (fun s k => actOnKey round tz table changes k.1 k.2 s) s = .ok s') :
    ActedAll catalog tz table changes keys s s' := by
  induction keys generalizing s with
  | nil =>
      cases h
      exact ⟨hstored, by simp, .inl rfl, le_refl _, by simp⟩
  | cons k keys ih =>
      rw [List.foldlM_cons] at h
      obtain ⟨s₁, hfirst, h⟩ := ok_of_bind h
      have hk := hkeys k (by simp)
      have hrest := fun hstored => ih (fun k hk => hkeys k (List.mem_cons_of_mem _ hk)) hstored h
      obtain rfl | ⟨hcauses, newChanges, hacted⟩ := acted_of_actOnKey hk.1 hk.2 hstored hfirst
      · have hall := hrest hstored
        refine ⟨hall.stored, ?_, ?_, hall.rows, ?_⟩
        · have := hall.potential_le
          rw [List.length_cons]
          omega
        · obtain heq | ⟨k', hk', hcauses⟩ := hall.causes
          · exact .inl heq
          · exact .inr ⟨k', List.mem_cons_of_mem _ hk', hcauses⟩
        · have := hall.old
          rw [List.length_cons, Nat.succ_mul]
          omega
      · have hall := hrest hacted.stored
        refine ⟨hall.stored, ?_, .inr ⟨k, by simp, hcauses⟩, hall.rows.trans hacted.rows, ?_⟩
        · have := hall.potential_le
          have := hacted.potential_le
          rw [List.length_cons]
          omega
        · have hold := hall.old
          have := hacted.old
          have := Nat.mul_le_mul_left keys.length hacted.rows
          rw [List.length_cons, Nat.succ_mul]
          omega

/-! ## The rounds -/

/-- A change of the next batch only has actions when it deletes the row, or gives a
column that actions can update a distinct value. -/
def State.OnlyDistinct (catalog : Catalog) (tz : TimeZone) (s : State) : Prop :=
  ∀ name changes rest, s.pending = (name, changes) :: rest →
    ∀ table, catalog.table? name = some table →
      ∀ k ∈ catalog.keys, k.2.referencedTable = name →
        ∀ c ∈ changes,
          c.Causes tz k.2 (foreignKeyTypes k.1 k.2.columns table k.2.referencedColumns) →
            c.IsDistinct tz (catalog.siteColumns name)

theorem mem_keys {k : Table × ForeignKey} (h : k ∈ catalog.keys) :
    k.1 ∈ catalog.tables ∧ k.2 ∈ k.1.foreignKeys := by
  obtain ⟨t, ht, hk⟩ := List.mem_flatMap.mp h
  obtain ⟨key, hkey, rfl⟩ := List.mem_map.mp hk
  exact ⟨ht, hkey⟩

theorem actedAll_of_round {rounds : Nat → Round} {i : Nat} (hstored : Stored catalog s)
    (h : round catalog tz rounds i s = some (.ok s')) :
    ∃ name changes rest table, s.pending = (name, changes) :: rest ∧
      catalog.table? name = some table ∧
      ActedAll catalog tz table changes
        (catalog.keys.filter fun k => k.2.referencedTable = name)
          { s with pending := rest } s' := by
  unfold round at h
  split at h
  · cases h
  · next name changes rest hpending =>
      have hround := Option.some.inj h
      split at hround
      · cases hround
      · cases hround
      · next table htable _ =>
          refine ⟨name, changes, rest, table, hpending, htable, ?_⟩
          refine actedAll_of_foldlM (fun k hk => mem_keys (List.mem_filter.mp hk).1) ?_ hround
          exact ⟨hstored.key, hstored.site⟩

section Run

variable {rounds : Nat → Round} {t : Table} {changes : List RowChange}
  {rows : OrderedMap SiteKey Row}

/-- The most rounds that there can be. -/
def maxRounds (catalog : Catalog) (s : State) : Nat :=
  (catalog.keys.length + 1) * (weight catalog s + 1)

/-- The potential, where the first batch counts as if it had actions. -/
noncomputable def measure (catalog : Catalog) (tz : TimeZone) (i : Nat) (s : State) : Nat :=
  if i = 0 then maxRounds catalog s else potential catalog tz s

theorem stored_start (hrows : OwnKeys catalog rows) : Stored catalog (start t changes rows) where
  key := hrows
  site := by
    intro e _ c v hc
    simp [start, ChangedSites.of] at hc

theorem stored_stateAt (hrows : OwnKeys catalog rows) {i : Nat}
    (h : Loop.stateAt (round catalog tz rounds) (start t changes rows) i = some s) :
    Stored catalog s := by
  have hstep : ∀ i s s', Stored catalog s → round catalog tz rounds i s = some (.ok s') →
      Stored catalog s' := by
    intro i s s' hstored hround
    obtain ⟨name, changes, rest, table, -, -, hall⟩ := actedAll_of_round hstored hround
    exact hall.stored
  exact Loop.stateAt_invariant (stored_start hrows) hstep i s h

theorem measure_lt (hrows : OwnKeys catalog rows)
    (hdistinct : ∀ i s, Loop.stateAt (round catalog tz rounds) (start t changes rows) (i + 1) =
      some s → s.OnlyDistinct catalog tz) :
    ∀ i s s', Loop.stateAt (round catalog tz rounds) (start t changes rows) i = some s →
      round catalog tz rounds i s = some (.ok s') →
      measure catalog tz (i + 1) s' < measure catalog tz i s := by
  intro i s s' hs hround
  obtain ⟨name, newChanges, rest, table, hpending, htable, hall⟩ :=
    actedAll_of_round (stored_stateAt hrows hs) hround
  have hle := hall.potential_le
  have hkeys := List.length_filter_le (fun k => decide (k.2.referencedTable = name)) catalog.keys
  cases i with
  | zero =>
      have hrest : rest = [] := by
        rw [← Option.some.inj hs, start] at hpending
        exact (List.cons.inj hpending).2.symm
      rw [hrest, potential_nil] at hle
      rw [measure, if_neg (by omega), measure, if_pos rfl, maxRounds, Nat.mul_add]
      omega
  | succ i =>
      rw [measure, if_neg (by omega), measure, if_neg (by omega), potential_cons hpending,
        batchWeight]
      split
      · omega
      · next hnot =>
          -- The batch has no actions, so nothing has changed but that it is done.
          obtain rfl | ⟨k, hk, c, hc, hcauses⟩ := hall.causes
          · omega
          · rw [List.mem_filter, decide_eq_true_eq] at hk
            exact absurd ⟨c, hc, hdistinct i s hs name newChanges rest hpending table htable k
              hk.1 hk.2 c hc hcauses⟩ hnot

theorem length_old_le (hrows : OwnKeys catalog rows) {i : Nat}
    (h : Loop.stateAt (round catalog tz rounds) (start t changes rows) i = some s) :
    s.rows.entries.length ≤ rows.entries.length ∧
      s.old.length ≤ changes.length + i * (catalog.keys.length * rows.entries.length) := by
  induction i generalizing s with
  | zero =>
      rw [← Option.some.inj h]
      simp [start]
  | succ i ih =>
      obtain ⟨s₁, hs₁, hround⟩ := Loop.stateAt_succ_eq_some h
      obtain ⟨hlength, hold⟩ := ih hs₁
      obtain ⟨name, newChanges, rest, table, hpending, htable, hall⟩ :=
        actedAll_of_round (stored_stateAt hrows hs₁) hround
      have hkeys := List.length_filter_le (fun k => decide (k.2.referencedTable = name))
        catalog.keys
      have hvisits := Nat.mul_le_mul hkeys hlength
      have hrest := hall.old
      refine ⟨hall.rows.trans hlength, ?_⟩
      rw [Nat.succ_mul]
      simp only at hrest
      omega

/-- The loop ends, and visits each row a bounded number of times, if the changes only
have actions when they delete a row or give a column a distinct value. -/
theorem apply_referential_actions_ends (hrows : OwnKeys catalog rows)
    (hdistinct : ∀ i s, Loop.stateAt (round catalog tz rounds) (start t changes rows) (i + 1) =
      some s → s.OnlyDistinct catalog tz) :
    (∃ result, Loop.loop (round catalog tz rounds)
        (maxRounds catalog (start t changes rows)) 0 (start t changes rows) = some result) ∧
      ∀ i s, Loop.stateAt (round catalog tz rounds) (start t changes rows) i = some s →
        i ≤ maxRounds catalog (start t changes rows) ∧
          s.old.length ≤ changes.length + i * (catalog.keys.length * rows.entries.length) := by
  have hmeasure := measure_lt hrows hdistinct
  refine ⟨Loop.exists_loop hmeasure, fun i s hs => ⟨?_, (length_old_le hrows hs).2⟩⟩
  have hle := Loop.stateAt_le hmeasure i s hs
  have hstart : measure catalog tz 0 (start t changes rows) =
      maxRounds catalog (start t changes rows) := rfl
  omega

end Run

/-! ## Examples -/

namespace Renumbering

/-- `CREATE TABLE t (id INTEGER PRIMARY KEY, parent INTEGER REFERENCES t ON UPDATE CASCADE)`. -/
def parent : ForeignKey where
  columns := ["PARENT"]
  referencedTable := "T"
  referencedColumns := ["ID"]
  updateRule := some .cascade
  indexId := 1
  indexColumns := [("PARENT", false)]

def t : Table where
  id := 1
  name := "T"
  columns := [⟨"ID", { typ := .integer, notNull := true }⟩, ⟨"PARENT", { typ := .integer }⟩]
  primaryKey := ["ID"]
  foreignKeys := [parent]

def schema : Catalog := ⟨[t], by simp⟩

def integer (n : Int) : Value :=
  match Value.ofContent { typ := .integer } (.int n) with
  | .ok v => v
  | .error _ => Value.null { typ := .integer }

def row (id : Int) (parent : Value) : Row :=
  ⟨[], (OrderedMap.empty.set "ID" (integer id)).set "PARENT" parent⟩

def root : Row := row 1 (Value.null { typ := .integer })

def renumbered : Row := row 5 (Value.null { typ := .integer })

def child (id : Int) : Row := row 2 (integer id)

/-- The rows after `UPDATE t SET id = 5 WHERE id = 1`. -/
def rows : OrderedMap SiteKey Row :=
  (OrderedMap.empty.set (t.siteKey renumbered) renumbered).set (t.siteKey (child 1)) (child 1)

def first : State := start t [.update root renumbered] rows

theorem ownKeys : OwnKeys schema rows := by
  have hkeys : ∀ e ∈ rows.entries, e.1.1 = "T" ∧ e.1 = t.siteKey e.2 := by
    decide +kernel
  intro e he
  refine ⟨t, ?_, (hkeys e he).2⟩
  rw [(hkeys e he).1]
  rfl

theorem pending_one : (Loop.stateAt (round schema noTimeZone fun _ => {}) first 1).map
    (·.pending) = some [("T", [.update (child 1) (child 5)])] := by
  decide +kernel

theorem pending_two : (Loop.stateAt (round schema noTimeZone fun _ => {}) first 2).map
    (·.pending) = some [] := by
  decide +kernel

theorem stateAt_three (n : Nat) :
    Loop.stateAt (round schema noTimeZone fun _ => {}) first (n + 3) = none := by
  induction n with
  | zero => decide +kernel
  | succ n ih =>
      rw [Loop.stateAt, ih]

/-- The update of the child gives its column PARENT a distinct value. -/
theorem onlyDistinct : ∀ i s, Loop.stateAt (round schema noTimeZone fun _ => {}) first (i + 1) =
    some s → s.OnlyDistinct schema noTimeZone := by
  intro i s hs name changes rest hpending table _ k _ _ c hc _
  match i with
  | 0 =>
      have hone := pending_one
      rw [hs, Option.map_some, hpending] at hone
      cases Option.some.inj hone
      rw [List.mem_singleton.mp hc]
      exact ⟨"PARENT", by decide +kernel, by decide +kernel⟩
  | 1 =>
      have htwo := pending_two
      rw [hs, Option.map_some, hpending] at htwo
      cases Option.some.inj htwo
  | n + 2 =>
      rw [stateAt_three n] at hs
      cases hs

end Renumbering

theorem apply_referential_actions_ends_renumbering :
    OwnKeys Renumbering.schema Renumbering.rows ∧
      ∃ result, Loop.loop (round Renumbering.schema noTimeZone fun _ => {})
        (maxRounds Renumbering.schema Renumbering.first) 0 Renumbering.first = some result :=
  ⟨Renumbering.ownKeys,
    (apply_referential_actions_ends Renumbering.ownKeys Renumbering.onlyDistinct).1⟩

/-! ## A change of a generated column -/

/-- `old` is only kept for the checks in the end. -/
def State.addOld (old : List (String × Row)) (s : State) : State :=
  { s with old := old ++ s.old }

theorem actOnKey_addOld {round : Round} {table referencing : Table} {key : ForeignKey}
    {changes : List RowChange} (old : List (String × Row)) :
    actOnKey round tz table changes referencing key (s.addOld old) =
      State.addOld old <$> actOnKey round tz table changes referencing key s := by
  unfold actOnKey
  simp only [apply_ite (Functor.map (State.addOld old)), map_bind, map_pure, State.addOld,
    List.append_assoc]

theorem foldlM_addOld {round : Round} {table : Table} {changes : List RowChange}
    {keys : List (Table × ForeignKey)} (old : List (String × Row)) :
    keys.foldlM (fun s k => actOnKey round tz table changes k.1 k.2 s) (s.addOld old) =
      State.addOld old <$>
        keys.foldlM (fun s k => actOnKey round tz table changes k.1 k.2 s) s := by
  induction keys generalizing s with
  | nil => rfl
  | cons k keys ih =>
      rw [List.foldlM_cons, List.foldlM_cons, actOnKey_addOld, map_bind, bind_map_left]
      congr! 2
      exact ih

theorem round_addOld {rounds : Nat → Round} {i : Nat} (old : List (String × Row))
    (h : round catalog tz rounds i s = some (.ok s')) :
    round catalog tz rounds i (s.addOld old) = some (.ok (s'.addOld old)) := by
  unfold round at h ⊢
  have hpending : (s.addOld old).pending = s.pending := rfl
  rw [hpending]
  split at h
  · cases h
  · next name changes rest hs =>
      have hround := Option.some.inj h
      split at hround
      · cases hround
      · cases hround
      · next table htable hfault =>
          have hstart : { s.addOld old with pending := rest } =
            State.addOld old { s with pending := rest } := rfl
          simp only [hstart, foldlM_addOld, hround]
          rfl

namespace TrailingSpaces

def varchar (s : Bytes) : Value :=
  match Value.ofContent { typ := .varchar, size := 2 } (.string s) with
  | .ok v => v
  | .error _ => Value.null { typ := .varchar }

def tenths (n : Int) : Except Failure Value :=
  Value.ofContent { typ := .decimal, size := 2, scale := 1 }
    (.numeric ⟨{ typ := .decimal, size := 2, scale := 1 }, n, 10⟩)

/-- `z` is `SUBSTRING('a ' FROM 1 FOR 3 - CHAR_LENGTH(x))`, which is not distinct from
`x`; `g1` is `0.8 + 0.2 * CHAR_LENGTH(x) - 0.2 * s`; and `g2` is
`1.4 - 0.2 * CHAR_LENGTH(x)`. -/
def generate (column : String) (row : Row) : Except Failure Value :=
  let length : Int := runes (row.get "X").stringValue
  if column = "Z" then .ok (varchar (if length = 1 then [97, 32] else [97]))
  else if column = "G1" then tenths (8 + 2 * length - 2 * (row.get "S").intValue)
  else tenths (14 - 2 * length)

def key (column referencedColumn : String) (indexId : Nat) : ForeignKey where
  columns := ["X", column]
  referencedTable := "T"
  referencedColumns := ["Z", referencedColumn]
  updateRule := some .cascade
  indexId := indexId
  indexColumns := [("X", false), (column, false)]

def t : Table where
  id := 1
  name := "T"
  columns :=
    [⟨"S", { typ := .integer }⟩, ⟨"X", { typ := .varchar, size := 2 }⟩,
      ⟨"C1", { typ := .integer }⟩, ⟨"C2", { typ := .integer }⟩,
      ⟨"Z", { typ := .varchar, size := 2 }⟩,
      ⟨"G1", { typ := .decimal, size := 2, scale := 1 }⟩,
      ⟨"G2", { typ := .decimal, size := 2, scale := 1 }⟩]
  foreignKeys := [key "C1" "G1" 3, key "C2" "G2" 4]
  generated := ["Z", "G1", "G2"]
  generate := generate
  notGenerated := by decide

def schema : Catalog := ⟨[t], by simp⟩

def row (s : Int) : Row :=
  let inserted : Row := ⟨[0, 0, 0, 0, 0, 0, 0, 1],
    (((OrderedMap.empty.set "S" (Renumbering.integer s)).set "X" (varchar [97, 32])).set
      "C1" (Renumbering.integer 1)).set "C2" (Renumbering.integer 1)⟩
  match applyGenerated t inserted with
  | .ok row => row
  | .error _ => inserted

/-- The row after `UPDATE t SET s = 0`. -/
def rows : OrderedMap SiteKey Row := OrderedMap.empty.set (t.siteKey (row 0)) (row 0)

def first : State := start t [.update (row 1) (row 0)] rows

/-- The states of the run, without `old`. -/
def core : Nat → State
  | 0 => { first with old := [] }
  | n + 1 =>
      match round schema noTimeZone (fun _ => {}) 0 (core n) with
      | some (.ok s) => { s with old := [] }
      | _ => core n

def more (s : State) : Bool :=
  match round schema noTimeZone (fun _ => {}) 0 s with
  | some (.ok _) => true
  | _ => false

theorem more_core : ∀ n < 5, more (core n) = true := by
  decide +kernel

theorem core_five : core 5 = core 3 := by
  decide +kernel

theorem round_core {n : Nat} (hn : n < 5) (i : Nat) (old : List (String × Row)) :
    ∃ old', round schema noTimeZone (fun _ => {}) i ((core n).addOld old) =
      some (.ok ((core (n + 1)).addOld old')) := by
  have hmore := more_core n hn
  unfold more at hmore
  split at hmore
  · next s hround =>
      refine ⟨old ++ s.old, ?_⟩
      have hnext : core (n + 1) = { s with old := [] } := by
        rw [core, hround]
      have hold : (core (n + 1)).addOld (old ++ s.old) = s.addOld old := by
        rw [hnext, State.addOld, State.addOld, List.append_nil]
      rw [hold]
      exact round_addOld old hround
  · cases hmore

def Stays (s : State) : Prop := ∃ n < 5, ∃ old, s = (core n).addOld old

theorem stays_round (i : Nat) (s : State) (hs : Stays s) :
    ∃ s', round schema noTimeZone (fun _ => {}) i s = some (.ok s') ∧ Stays s' := by
  obtain ⟨n, hn, old, rfl⟩ := hs
  obtain ⟨old', hround⟩ := round_core hn i old
  refine ⟨_, hround, ?_⟩
  obtain hlt | rfl : n + 1 < 5 ∨ n = 4 := by omega
  · exact ⟨n + 1, hlt, old', rfl⟩
  · exact ⟨3, by omega, old', by rw [core_five]⟩

end TrailingSpaces

/-- The two keys update the row in turn, to values that are not distinct. -/
theorem not_apply_referential_actions_ends :
    OwnKeys TrailingSpaces.schema TrailingSpaces.rows ∧
      ∀ fuel, Loop.loop (round TrailingSpaces.schema noTimeZone fun _ => {}) fuel 0
        (start TrailingSpaces.t [.update (TrailingSpaces.row 1) (TrailingSpaces.row 0)]
          TrailingSpaces.rows) = none := by
  have hkeys : ∀ e ∈ TrailingSpaces.rows.entries,
      e.1.1 = "T" ∧ e.1 = TrailingSpaces.t.siteKey e.2 := by
    decide +kernel
  refine ⟨fun e he => ⟨TrailingSpaces.t, ?_, (hkeys e he).2⟩, fun fuel => ?_⟩
  · rw [(hkeys e he).1]
    rfl
  · exact Loop.loop_eq_none TrailingSpaces.stays_round fuel 0 _
      ⟨0, by omega, TrailingSpaces.first.old, by simp [TrailingSpaces.core, State.addOld,
        TrailingSpaces.first]⟩

end Vsql.Referential
