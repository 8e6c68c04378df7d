import Vsql.Referential.Actions

/-!
# What the rows of a batch are stored as

Storing the changes of a batch removes the old rows and adds the new ones, whether
they keep their keys or not, and fails if two rows would have the same key.
-/

namespace Vsql.Referential

open Foundation

/-! ## Maps as lists of entries -/

variable {κ α : Type} [DecidableEq κ]

theorem perm_setEntry (k : κ) (v : α) {entries : List (κ × α)}
    (h : (entries.map Prod.fst).Nodup) :
    (OrderedMap.setEntry k v entries).Perm ((k, v) :: entries.filter (·.1 ≠ k)) := by
  induction entries with
  | nil => exact .refl _
  | cons e entries ih =>
      rw [List.map_cons, List.nodup_cons] at h
      rw [OrderedMap.setEntry]
      by_cases hk : e.1 = k
      · have hrest : entries.filter (·.1 ≠ k) = entries := by
          rw [List.filter_eq_self]
          intro a ha
          simp only [ne_eq, decide_not, Bool.not_eq_eq_eq_not, Bool.not_true,
            decide_eq_false_iff_not]
          rintro rfl
          exact h.1 (hk ▸ List.mem_map_of_mem ha)
        rw [if_pos hk, List.filter_cons_of_neg (by simpa using hk), hrest]
      · rw [if_neg hk, List.filter_cons_of_pos (by simpa using hk)]
        exact ((ih h.2).cons e).trans (.swap _ _ _)

theorem perm_set (m : OrderedMap κ α) (k : κ) (v : α) :
    (m.set k v).entries.Perm ((k, v) :: m.entries.filter (·.1 ≠ k)) :=
  perm_setEntry k v m.nodup

theorem contains_iff (m : OrderedMap κ α) (k : κ) : m.contains k = true ↔ k ∈ m.keys := by
  simp [OrderedMap.contains]

/-! ## Storing a batch -/

/-- The rows that the changes of a batch write. -/
def written (t : Table) (changes : List RowChange) : List (SiteKey × Row) :=
  changes.filterMap fun
    | .update _ new => some (t.siteKey new, new)
    | .delete _ => none

def oldKeys (t : Table) (changes : List RowChange) : List SiteKey :=
  changes.map fun c => t.siteKey c.old

theorem filter_filter_ne {k : SiteKey} {ks : List SiteKey} (entries : List (SiteKey × Row)) :
    (entries.filter (·.1 ≠ k)).filter (·.1 ∉ ks) = entries.filter (·.1 ∉ k :: ks) := by
  rw [List.filter_filter]
  refine List.filter_congr fun e _ => ?_
  simp [not_or, Bool.and_comm]

theorem perm_storeChanges {t : Table} {changes : List RowChange}
    {rows rows' : OrderedMap SiteKey Row} {moved : List Row}
    (h : storeChanges t changes rows = .ok (rows', moved))
    (hnodup : (oldKeys t changes).Nodup) :
    (∀ k ∈ oldKeys t changes, k ∈ rows.keys) ∧
      ∃ inPlace, rows'.entries.Perm
          (rows.entries.filter (·.1 ∉ oldKeys t changes) ++ inPlace) ∧
        (inPlace ++ moved.map fun r => (t.siteKey r, r)).Perm (written t changes) := by
  induction changes generalizing rows rows' moved with
  | nil =>
      rw [storeChanges] at h
      cases h
      exact ⟨by simp [oldKeys], [], by simp [oldKeys], by simp [written]⟩
  | cons change changes ih =>
      have hkeys : oldKeys t (change :: changes) =
          t.siteKey change.old :: oldKeys t changes := rfl
      rw [hkeys, List.nodup_cons] at hnodup
      unfold storeChanges at h
      by_cases hcontains : rows.contains (t.siteKey change.old) = true
      case neg => 
        simp only [hcontains, Bool.false_eq_true, if_false] at h
        cases h
      simp only [hcontains, if_true] at h
      have hmem := (contains_iff _ _).mp hcontains
      have herased : ∀ {rows'' moved''},
          storeChanges t changes (rows.erase (t.siteKey change.old)) = .ok (rows'', moved'') →
          (∀ k ∈ oldKeys t changes, k ∈ rows.keys) ∧
          ∃ inPlace, rows''.entries.Perm
              (rows.entries.filter (·.1 ∉ oldKeys t (change :: changes)) ++ inPlace) ∧
            (inPlace ++ moved''.map fun r => (t.siteKey r, r)).Perm (written t changes) := by
        intro rows'' moved'' herase
        obtain ⟨hold, inPlace, hperm, hwritten⟩ := ih herase hnodup.2
        refine ⟨fun k hk => ?_, inPlace, ?_, hwritten⟩
        · obtain ⟨e, he, rfl⟩ := List.mem_map.mp (hold k hk)
          exact List.mem_map_of_mem (List.mem_filter.mp he).1
        · rw [hkeys, ← filter_filter_ne]
          exact hperm
      rw [hkeys, List.forall_mem_cons]
      cases change with
      | delete old =>
          obtain ⟨hold, hrest⟩ := herased h
          exact ⟨⟨hmem, hold⟩, hrest⟩
      | update old new =>
          simp only at h
          split at h
          · next hsame =>
              obtain ⟨hold, inPlace, hperm, hwritten⟩ := ih h hnodup.2
              refine ⟨⟨hmem, fun k hk => ?_⟩, (t.siteKey new, new) :: inPlace, ?_, ?_⟩
              · obtain rfl | hk' := (OrderedMap.mem_keys_set _ _ _ _).mp (hold k hk)
                · exact absurd hk hnodup.1
                · exact hk'
              · refine hperm.trans ?_
                have hset := (perm_set rows (t.siteKey (RowChange.update old new).old) new).filter
                  (·.1 ∉ oldKeys t changes)
                rw [List.filter_cons_of_pos (by simpa using hnodup.1), filter_filter_ne] at hset
                rw [hsame] at hset ⊢
                refine (hset.append_right _).trans ?_
                exact List.perm_middle.symm
              · exact hwritten.cons _
          · next hmoves =>
              obtain ⟨⟨rows'', moved''⟩, hstore, h⟩ := ok_of_bind h
              cases h
              obtain ⟨hold, inPlace, hperm, hwritten⟩ := herased hstore
              refine ⟨⟨hmem, hold⟩, inPlace, hperm, ?_⟩
              rw [List.map_cons]
              exact List.perm_middle.trans (hwritten.cons _)

theorem perm_writeMoved {t : Table} {moved : List Row} {rows rows' : OrderedMap SiteKey Row}
    (h : writeMoved t moved rows = .ok rows') :
    rows'.entries.Perm (rows.entries ++ moved.map fun r => (t.siteKey r, r)) := by
  induction moved generalizing rows with
  | nil =>
      rw [writeMoved] at h
      cases h
      simp
  | cons row moved ih =>
      rw [writeMoved] at h
      split at h
      · cases h
      · next hnew =>
          rw [contains_iff] at hnew
          have hkept : rows.entries.filter (·.1 ≠ t.siteKey row) = rows.entries := by
            rw [List.filter_eq_self]
            intro e he
            simp only [ne_eq, decide_not, Bool.not_eq_eq_eq_not, Bool.not_true,
              decide_eq_false_iff_not]
            rintro heq
            exact hnew (heq ▸ List.mem_map_of_mem he)
          have hset := perm_set rows (t.siteKey row) row
          rw [hkept] at hset
          refine (ih h).trans ?_
          rw [List.map_cons]
          exact (hset.append_right _).trans List.perm_middle.symm

/-- Storing a batch replaces its old rows by its new ones. -/
theorem perm_stored {t : Table} {changes : List RowChange}
    {rows rows' rows'' : OrderedMap SiteKey Row} {moved : List Row}
    (hstore : storeChanges t changes rows = .ok (rows', moved))
    (hwrite : writeMoved t moved rows' = .ok rows'') (hnodup : (oldKeys t changes).Nodup) :
    rows''.entries.Perm (rows.entries.filter (·.1 ∉ oldKeys t changes) ++ written t changes) := by
  obtain ⟨-, inPlace, hperm, hwritten⟩ := perm_storeChanges hstore hnodup
  refine (perm_writeMoved hwrite).trans ((hperm.append_right _).trans ?_)
  rw [List.append_assoc]
  exact hwritten.append_left _

theorem perm_keys {t : Table} {changes : List RowChange} {rows : OrderedMap SiteKey Row}
    (hnodup : (oldKeys t changes).Nodup) (hold : ∀ k ∈ oldKeys t changes, k ∈ rows.keys) :
    rows.keys.Perm
      ((rows.entries.filter (·.1 ∉ oldKeys t changes)).map Prod.fst ++ oldKeys t changes) := by
  have hkeys : (rows.entries.filter (·.1 ∉ oldKeys t changes)).map Prod.fst =
      rows.keys.filter (· ∉ oldKeys t changes) := by
    rw [OrderedMap.keys, List.filter_map]
    rfl
  have hdisjoint : (rows.keys.filter (· ∉ oldKeys t changes)).Disjoint (oldKeys t changes) := by
    intro k hk hk'
    simpa [hk'] using (List.mem_filter.mp hk).2
  rw [hkeys]
  refine (List.perm_ext_iff_of_nodup rows.nodup ?_).mpr fun k => ?_
  · exact List.nodup_append'.mpr ⟨rows.nodup.filter _, hnodup, hdisjoint⟩
  · have hiff := hold k
    simp only [List.mem_append, List.mem_filter, decide_eq_true_eq]
    change k ∈ rows.keys ↔ _
    tauto

end Vsql.Referential
