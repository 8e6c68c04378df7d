import Vsql.Referential.Sites

/-!
# The changes of an action

An action changes the rows that reference a deleted or an updated key, each once.
It only updates the columns of the FOREIGN KEY and the generated columns.
-/

namespace Vsql.Referential

open Foundation

/-! ## The keys that changes delete and update -/

/-- A change that has an action of the key. -/
def RowChange.Causes (tz : TimeZone) (key : ForeignKey) (types : List SqlType) :
    RowChange → Prop
  | .delete _ => key.deleteRule.isSome
  | .update old new => key.updateRule.isSome ∧
      keyValue tz old key.referencedColumns types ≠ [] ∧
      keyValue tz new key.referencedColumns types ≠ keyValue tz old key.referencedColumns types

structure KeyChanges.Sound (key : ForeignKey) (kc : KeyChanges) : Prop where
  deleted : ∀ v ∈ kc.deleted, key.deleteRule.isSome
  updated : ∀ v ∈ kc.updated.keys, key.updateRule.isSome
  keys : ∀ v ∈ kc.keys.keys, v ∈ kc.deleted ∨ v ∈ kc.updated.keys

theorem KeyChanges.Sound.add {tz : TimeZone} {key : ForeignKey} {types : List SqlType}
    {kc : KeyChanges} (h : kc.Sound key) (change : RowChange) :
    (kc.add tz key types change).Sound key := by
  unfold KeyChanges.add
  dsimp only
  split
  · exact h
  · cases change with
    | delete old =>
        dsimp only
        split
        · next hrule =>
            refine ⟨fun _ _ => hrule, h.updated, fun v hv => ?_⟩
            obtain rfl | hv := (OrderedMap.mem_keys_set _ _ _ _).mp hv
            · exact .inl (by simp)
            · exact (h.keys v hv).imp_left (List.mem_cons_of_mem _)
        · exact h
    | update old new =>
        dsimp only
        split
        · next hrule =>
            refine ⟨h.deleted, fun _ _ => hrule.1, fun v hv => ?_⟩
            rw [OrderedMap.mem_keys_set] at hv ⊢
            obtain rfl | hv := hv
            · exact .inr (.inl rfl)
            · exact (h.keys v hv).imp_right .inr
        · exact h

theorem keyChanges_sound (tz : TimeZone) (key : ForeignKey) (types : List SqlType)
    (changes : List RowChange) : (keyChanges tz key types changes).Sound key := by
  have hfold : ∀ (changes : List RowChange) (kc : KeyChanges), kc.Sound key →
      (changes.foldl (KeyChanges.add tz key types) kc).Sound key := by
    intro changes
    induction changes with
    | nil => exact fun _ h => h
    | cons change changes ih => exact fun kc h => ih _ (h.add change)
  exact hfold changes {} ⟨by simp, by simp [OrderedMap.keys, OrderedMap.empty],
    by simp [OrderedMap.keys, OrderedMap.empty]⟩

theorem KeyChanges.add_of_not_causes {tz : TimeZone} {key : ForeignKey} {types : List SqlType}
    {kc : KeyChanges} {change : RowChange} (h : ¬ change.Causes tz key types) :
    kc.add tz key types change = kc := by
  unfold KeyChanges.add
  dsimp only
  split
  · rfl
  · next hvalue =>
      cases change with
      | delete old => exact if_neg h
      | update old new =>
          refine if_neg fun hrule => h ⟨hrule.1, hvalue, hrule.2⟩

theorem exists_causes {tz : TimeZone} {key : ForeignKey} {types : List SqlType}
    {changes : List RowChange} (h : (keyChanges tz key types changes).keys.entries ≠ []) :
    ∃ c ∈ changes, c.Causes tz key types := by
  by_contra hnone
  push Not at hnone
  have hfold : ∀ (changes : List RowChange) (kc : KeyChanges),
      (∀ c ∈ changes, ¬ c.Causes tz key types) →
      changes.foldl (KeyChanges.add tz key types) kc = kc := by
    intro changes
    induction changes with
    | nil => exact fun _ _ => rfl
    | cons change changes ih =>
        intro kc hc
        rw [List.foldl_cons, KeyChanges.add_of_not_causes (hc change (by simp))]
        exact ih kc fun c hmem => hc c (List.mem_cons_of_mem _ hmem)
  rw [keyChanges, hfold changes {} hnone] at h
  exact h rfl

/-! ## The matching rows -/

theorem mem_matchingRows {tz : TimeZone} {key : ForeignKey} {referencing : Table}
    {types : List SqlType} {keys : OrderedMap Bytes Row} {rows : OrderedMap SiteKey Row}
    {row : Row} (h : row ∈ matchingRows tz key referencing types keys rows) :
    keyValue tz row key.columns types ∈ keys.keys ∧
      ∃ k, (k, row) ∈ rows.entries ∧ k.1 = referencing.name := by
  obtain ⟨e, he, rfl⟩ := List.mem_map.mp h
  rw [List.mem_insertionSort, List.mem_filter] at he
  simp only [Bool.and_eq_true, beq_iff_eq] at he
  exact ⟨(contains_iff _ _).mp he.2.2, e.1, he.1, he.2.1.1⟩

theorem matchingRows_siteKeys {tz : TimeZone} {key : ForeignKey} {referencing : Table}
    {types : List SqlType} {keys : OrderedMap Bytes Row} {rows : OrderedMap SiteKey Row}
    (hstored : ∀ e ∈ rows.entries, e.1.1 = referencing.name → e.1 = referencing.siteKey e.2) :
    ((matchingRows tz key referencing types keys rows).map referencing.siteKey).Nodup ∧
      (matchingRows tz key referencing types keys rows).length ≤ rows.entries.length := by
  unfold matchingRows
  dsimp only
  generalize hmatching : rows.entries.filter _ = matching
  have hsub : matching.Sublist rows.entries := by
    rw [← hmatching]
    exact List.filter_sublist
  have hkeys : (matching.map fun e => referencing.siteKey e.2) = matching.map Prod.fst := by
    refine List.map_congr_left fun e he => (hstored e (hsub.subset he) ?_).symm
    rw [← hmatching, List.mem_filter] at he
    simp only [Bool.and_eq_true, beq_iff_eq] at he
    exact he.2.1.1
  constructor
  · rw [List.map_map]
    refine ((List.perm_insertionSort _ matching).map _).nodup_iff.mpr ?_
    exact hkeys ▸ rows.nodup.sublist (hsub.map _)
  · rw [List.length_map, List.length_insertionSort]
    exact hsub.length_le

/-! ## The change of a row -/

theorem Row.get_set (row : Row) (c c' : String) (v : Value) :
    (row.set c v).get c' = if c' = c then v else row.get c' := by
  unfold Row.get Row.set
  rw [OrderedMap.get?_set]
  split <;> rfl

theorem applyGenerated_get {t : Table} {row after : Row} (h : applyGenerated t row = .ok after)
    {c : String} (hc : c ∉ t.generated) : after.get c = row.get c := by
  refine foldlM_invariant (P := fun r : Row => r.get c = row.get c) h rfl ?_
  intro r column r' hcolumn hr hstep
  obtain ⟨value, -, hstep⟩ := ok_of_bind hstep
  obtain ⟨typ, -, hstep⟩ := ok_of_bind hstep
  have hne : c ≠ column := fun heq => hc (heq ▸ hcolumn)
  dsimp only at hstep
  split at hstep
  · cases hstep
  · cases hstep
    rw [Row.get_set, if_neg hne, hr]

/-- The update of a row gives other values only to the columns of the key and to
generated columns. -/
theorem actOnRow_eq_ok {round : Round} {tz : TimeZone} {referencing : Table} {key : ForeignKey}
    {types : List SqlType} {kc : KeyChanges} {row : Row} {change : RowChange}
    (h : actOnRow round tz referencing key types kc row = .ok change) (hsound : kc.Sound key)
    (hvalue : keyValue tz row key.columns types ∈ kc.keys.keys) :
    change.old = row ∧ ∀ new, change = .update row new →
      key.updates = true ∧
      ∀ c, c ∉ key.columns → c ∉ referencing.generated → new.get c = row.get c := by
  unfold actOnRow at h
  dsimp only at h
  generalize hrule : (if kc.deleted.contains _ then key.deleteRule else key.updateRule) = rule at h
  by_cases hdelete : rule = some .cascade ∧ kc.deleted.contains (keyValue tz row key.columns types)
  · rw [if_pos hdelete] at h
    cases h
    exact ⟨rfl, by simp⟩
  · rw [if_neg hdelete] at h
    obtain ⟨after, hafter, h⟩ := ok_of_bind h
    obtain ⟨generated, hgenerated, h⟩ := ok_of_bind h
    obtain ⟨_, -, h⟩ := ok_of_bind h
    cases h
    refine ⟨rfl, fun new hnew => ?_⟩
    cases hnew
    refine ⟨?_, fun c hc hnot => ?_⟩
    · by_cases hcontains : kc.deleted.contains (keyValue tz row key.columns types) = true
      · have hsome := hsound.deleted _ (List.contains_iff_mem.mp hcontains)
        rw [if_pos hcontains] at hrule
        rw [hcontains, ← hrule] at hdelete
        obtain ⟨action, haction⟩ := Option.isSome_iff_exists.mp hsome
        rw [haction] at hdelete
        cases action <;> simp [ForeignKey.updates, haction] at hdelete ⊢
      · have hupdated := (hsound.keys _ hvalue).resolve_left
          fun hmem => hcontains (List.contains_iff_mem.mpr hmem)
        simp [ForeignKey.updates, hsound.updated _ hupdated]
    · rw [applyGenerated_get hgenerated hnot]
      refine foldlM_invariant (P := fun r : Row => r.get c = row.get c) hafter rfl ?_
      intro r p r' hp hr hstep
      obtain ⟨v, -, hstep⟩ := ok_of_bind hstep
      cases hstep
      have hne : c ≠ p.1 := fun heq => hc (heq ▸ (List.of_mem_zip hp).1)
      rw [Row.get_set, if_neg hne, hr]

end Vsql.Referential
