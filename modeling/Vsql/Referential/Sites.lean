import Vsql.Queries.ExactComparison
import Vsql.Referential.Store

/-!
# The columns that actions have updated

The sites of a row hold the values that the row has in the columns that actions
have updated.  An action that gives one of these columns a distinct value fails, so
a distinct value is one of a column that no action has updated yet.
-/

namespace Vsql.Referential

open Foundation

/-! ## One row -/

theorem updateSites_eq_ok {tz : TimeZone} {t : Table} {new : Row} {columns : List String}
    {sites after : OrderedMap String Value}
    (h : updateSites tz t new columns sites = .ok after) :
    (∀ c, after.get? c = if c ∈ columns then some (new.get c) else sites.get? c) ∧
      ∀ c ∈ columns, ∀ previous, sites.get? c = some previous →
        isDistinct tz previous (new.get c) = .ok false := by
  induction columns generalizing sites with
  | nil =>
      rw [updateSites] at h
      cases h
      simp
  | cons column columns ih =>
      rw [updateSites] at h
      obtain ⟨distinct, hdistinct, h⟩ := ok_of_bind h
      cases distinct with
      | true => cases h
      | false =>
          obtain ⟨hget, hrest⟩ := ih h
          refine ⟨fun c => ?_, fun c hc previous hprevious => ?_⟩
          · rw [hget, OrderedMap.get?_set]
            by_cases hc : c = column
            · simp [hc]
            · simp [hc]
          · by_cases hc' : c = column
            · subst hc'
              rw [hprevious] at hdistinct
              exact hdistinct
            · refine hrest c ((List.mem_cons.mp hc).resolve_left hc') previous ?_
              rw [OrderedMap.get?_set, if_neg hc', hprevious]

/-- The columns that no action has updated yet. -/
def unset (columns : List String) (sites : OrderedMap String Value) : List String :=
  columns.filter fun c => (sites.get? c).isNone

theorem unset_sublist {tz : TimeZone} {t : Table} {new : Row} {columns siteColumns : List String}
    {sites after : OrderedMap String Value}
    (h : updateSites tz t new columns sites = .ok after) :
    (unset siteColumns after).length ≤ (unset siteColumns sites).length := by
  refine (List.monotone_filter_right siteColumns fun c hc => ?_).length_le
  rw [(updateSites_eq_ok h).1 c] at hc
  split at hc
  · simp at hc
  · exact hc

theorem unset_lt {tz : TimeZone} {t : Table} {new : Row} {columns siteColumns : List String}
    {sites after : OrderedMap String Value} {c : String}
    (h : updateSites tz t new columns sites = .ok after) (hc : c ∈ columns)
    (hsite : c ∈ siteColumns) (hnone : sites.get? c = none) :
    (unset siteColumns after).length < (unset siteColumns sites).length := by
  have hmono : unset siteColumns after =
      (unset siteColumns sites).filter fun c => (after.get? c).isNone := by
    rw [unset, unset, List.filter_filter]
    refine List.filter_congr fun c' _ => ?_
    have hget := (updateSites_eq_ok h).1 c'
    by_cases hc' : c' ∈ columns
    · simp [hget, hc']
    · simp [hget, hc']
  rw [hmono]
  refine List.length_filter_lt_length_iff_exists.mpr ⟨c, ?_, ?_⟩
  · exact List.mem_filter.mpr ⟨hsite, by simp [hnone]⟩
  · simp [(updateSites_eq_ok h).1 c, hc]

/-! ## Distinct values -/

theorem compareF64_self (x : F64) : compareF64 x x = .isEqual := by
  have hlt : BinaryFloat.lt x x = false := by
    simp [BinaryFloat.lt]
  simp [compareF64, hlt]

theorem compareNumbers_self {v : Value} (hnull : v.isNull = false) :
    Value.compareNumbers v v = .isEqual := by
  by_cases hexact : v.typ.typ.isExactDecimal ∨ v.typ.typ.isInteger
  · rw [Value.compareNumbers_exact hnull hexact hexact, Value.compareInts_eq_isEqual]
  · rw [not_or] at hexact
    unfold Value.compareNumbers
    simp [hexact.1, hexact.2, compareF64_self]

theorem compareDatetimes_self (tz : TimeZone) (t : Time) :
    Value.compareDatetimes tz t t = .isEqual := by
  unfold Value.compareDatetimes
  split <;> exact Value.compareInts_eq_isEqual.mpr rfl

theorem compare_self (tz : TimeZone) {v : Value} (hnull : v.isNull = false) :
    Value.compare tz v v = .ok .isEqual := by
  obtain ⟨content, hv⟩ : ∃ content, v.v = some content := by
    cases hv : v.v with
    | none => simp [Value.isNull, hv] at hnull
    | some content => exact ⟨content, rfl⟩
  have hfits := v.fits content (by rw [hv]; rfl)
  unfold Value.compare
  rw [hnull, if_neg (by simp)]
  by_cases hnum : v.typ.typ.isNumber
  · rw [if_pos ⟨hnum, hnum⟩, compareNumbers_self hnull]
  rw [if_neg (fun h => hnum h.1)]
  by_cases hstr : v.typ.typ.isString
  · rw [if_pos ⟨hstr, hstr⟩]
    simp [Value.compareStrings]
  rw [if_neg (fun h => hstr h.1)]
  cases content with
  | time t =>
      have htime : v.timeValue? = some t := by rw [Value.timeValue?, hv]
      simp [htime, compareDatetimes_self]
  | bool x =>
      have hbool : v.typ.typ = .boolean := hfits
      have htime : v.timeValue? = none := by rw [Value.timeValue?, hv]
      cases v.boolValue <;> simp [htime, hbool, Value.compareBooleans]
  | int x =>
      refine absurd ?_ hnum
      have hint := hfits.1
      revert hint
      cases v.typ.typ <;> simp [SqlType.isInteger, SqlType.isNumber]
  | f64 x =>
      refine absurd ?_ hnum
      obtain h | h := hfits
      · simp [h, SqlType.isNumber]
      · simp [h.1, SqlType.isNumber]
  | string x => exact absurd hfits hstr
  | numeric x =>
      refine absurd ?_ hnum
      have hdec := hfits.typ
      revert hdec
      cases v.typ.typ <;> simp [SqlType.isExactDecimal, SqlType.isNumber]

theorem isDistinct_self (tz : TimeZone) (v : Value) : isDistinct tz v v ≠ .ok true := by
  unfold isDistinct
  split
  · simp
  · next hnull =>
      rw [compare_self tz (by simpa using hnull)]
      simp [bind, Except.bind, pure, Except.pure]

/-! ## The rows of a batch -/

/-- The columns of a row that actions have updated. -/
def ChangedSites.of (sites : ChangedSites) (k : SiteKey) : OrderedMap String Value :=
  (sites.updated.get? k).getD .empty

theorem newSites_keys {tz : TimeZone} {t : Table} {columns : List String}
    {sites : ChangedSites} {changes : List RowChange}
    {updated : List (SiteKey × OrderedMap String Value)}
    (h : newSites tz t columns sites changes = .ok updated) :
    updated.map Prod.fst = (written t changes).map Prod.fst := by
  induction changes generalizing updated with
  | nil =>
      rw [newSites] at h
      cases h
      rfl
  | cons change changes ih =>
      cases change with
      | delete old =>
          rw [newSites] at h
          split at h
          · cases h
          · exact ih h
      | update old new =>
          rw [newSites] at h
          obtain ⟨after, -, h⟩ := ok_of_bind h
          obtain ⟨rest, hrest, h⟩ := ok_of_bind h
          cases h
          simpa [written] using ih hrest

theorem newSites_mem {tz : TimeZone} {t : Table} {columns : List String}
    {sites : ChangedSites} {changes : List RowChange}
    {updated : List (SiteKey × OrderedMap String Value)}
    (h : newSites tz t columns sites changes = .ok updated) :
    ∀ old new, .update old new ∈ changes → ∃ after, (t.siteKey new, after) ∈ updated ∧
      updateSites tz t new columns (sites.of (t.siteKey old)) = .ok after := by
  induction changes generalizing updated with
  | nil => simp
  | cons change changes ih =>
      intro old new hmem
      cases change with
      | delete old' =>
          rw [newSites] at h
          split at h
          · cases h
          · exact ih h old new (by simpa using hmem)
      | update old' new' =>
          rw [newSites] at h
          obtain ⟨after, hafter, h⟩ := ok_of_bind h
          obtain ⟨rest, hrest, h⟩ := ok_of_bind h
          cases h
          obtain heq | hmem := List.mem_cons.mp hmem
          · cases heq
            exact ⟨after, by simp, hafter⟩
          · obtain ⟨after', hmem', hafter'⟩ := ih hrest old new hmem
            exact ⟨after', List.mem_cons_of_mem _ hmem', hafter'⟩

/-- How much actions can still do to a row with these sites. -/
def remaining (siteColumns : List String) (sites : OrderedMap String Value) : Nat :=
  1 + (unset siteColumns sites).length

/-- A change that an action cannot make again. -/
def RowChange.Uses (t : Table) (columns siteColumns : List String) (sites : ChangedSites) :
    RowChange → Prop
  | .delete _ => True
  | .update old _ => ∃ c ∈ columns, c ∈ siteColumns ∧
      (sites.of (t.siteKey old)).get? c = none

theorem newSites_remaining {tz : TimeZone} {t : Table} {columns : List String}
    {sites : ChangedSites} {changes : List RowChange}
    {updated : List (SiteKey × OrderedMap String Value)} (siteColumns : List String)
    (h : newSites tz t columns sites changes = .ok updated) :
    (updated.map fun e => remaining siteColumns e.2).sum ≤
        ((oldKeys t changes).map fun k => remaining siteColumns (sites.of k)).sum ∧
      ((∃ c ∈ changes, c.Uses t columns siteColumns sites) →
        (updated.map fun e => remaining siteColumns e.2).sum <
          ((oldKeys t changes).map fun k => remaining siteColumns (sites.of k)).sum) := by
  induction changes generalizing updated with
  | nil =>
      rw [newSites] at h
      cases h
      simp
  | cons change changes ih =>
      rw [oldKeys, List.map_cons, ← oldKeys, List.map_cons, List.sum_cons]
      cases change with
      | delete old =>
          rw [newSites] at h
          split at h
          · cases h
          · have hrest := (ih h).1
            have hpos : 0 < remaining siteColumns
                (sites.of (t.siteKey (RowChange.delete old).old)) := by
              simp [remaining]
            exact ⟨by omega, fun _ => by omega⟩
      | update old new =>
          rw [newSites] at h
          obtain ⟨after, hafter, h⟩ := ok_of_bind h
          obtain ⟨rest, hrest, h⟩ := ok_of_bind h
          cases h
          obtain ⟨hle, hlt⟩ := ih hrest
          have hfirst : remaining siteColumns after ≤
              remaining siteColumns (sites.of (t.siteKey old)) :=
            Nat.add_le_add_left (unset_sublist hafter) 1
          rw [List.map_cons, List.sum_cons]
          simp only [RowChange.old]
          refine ⟨by omega, ?_⟩
          rintro ⟨c, hc, huses⟩
          obtain rfl | hc := List.mem_cons.mp hc
          · obtain ⟨column, hcolumn, hsite, hnone⟩ := huses
            have hstrict : remaining siteColumns after <
                remaining siteColumns (sites.of (t.siteKey old)) :=
              Nat.add_lt_add_left (unset_lt hafter hcolumn hsite hnone) 1
            omega
          · have := hlt ⟨c, hc, huses⟩
            omega

theorem get?_foldl_set {m : OrderedMap SiteKey (OrderedMap String Value)}
    {updated : List (SiteKey × OrderedMap String Value)}
    (hnodup : (updated.map Prod.fst).Nodup) :
    (∀ e ∈ updated, (updated.foldl (fun m e => m.set e.1 e.2) m).get? e.1 = some e.2) ∧
      ∀ k, k ∉ updated.map Prod.fst →
        (updated.foldl (fun m e => m.set e.1 e.2) m).get? k = m.get? k := by
  induction updated generalizing m with
  | nil => simp
  | cons e updated ih =>
      rw [List.map_cons, List.nodup_cons] at hnodup
      rw [List.foldl_cons]
      obtain ⟨hmem, hother⟩ := ih (m := m.set e.1 e.2) hnodup.2
      refine ⟨fun e' he' => ?_, fun k hk => ?_⟩
      · obtain rfl | he' := List.mem_cons.mp he'
        · rw [hother _ hnodup.1, OrderedMap.get?_set, if_pos rfl]
        · exact hmem e' he'
      · rw [List.map_cons, List.mem_cons, not_or] at hk
        rw [hother k hk.2, OrderedMap.get?_set, if_neg hk.1]

theorem get?_foldl_erase (t : Table) (changes : List RowChange)
    (m : OrderedMap SiteKey (OrderedMap String Value)) (k : SiteKey)
    (hk : k ∉ oldKeys t changes) :
    (changes.foldl (fun m c => m.erase (t.siteKey c.old)) m).get? k = m.get? k := by
  induction changes generalizing m with
  | nil => rfl
  | cons change changes ih =>
      rw [oldKeys, List.map_cons, List.mem_cons, not_or] at hk
      rw [List.foldl_cons, ih _ hk.2, OrderedMap.get?_erase, if_neg hk.1]

/-- The sites of the rows that a batch writes, and of the rows that it leaves alone. -/
theorem add_eq_ok {tz : TimeZone} {t : Table} {columns : List String}
    {sites sites' : ChangedSites} {changes : List RowChange}
    (h : sites.add tz t changes columns = .ok sites')
    (hnodup : ((written t changes).map Prod.fst).Nodup) :
    ∃ updated, newSites tz t columns sites changes = .ok updated ∧
      (∀ e ∈ updated, sites'.of e.1 = e.2) ∧
      ∀ k, k ∉ oldKeys t changes → k ∉ (written t changes).map Prod.fst →
        sites'.of k = sites.of k := by
  obtain ⟨updated, hupdated, h⟩ := ok_of_bind h
  cases h
  rw [← newSites_keys hupdated] at hnodup ⊢
  obtain ⟨hmem, hother⟩ := get?_foldl_set
    (m := changes.foldl (fun m c => m.erase (t.siteKey c.old)) sites.updated) hnodup
  refine ⟨updated, hupdated, fun e he => ?_, fun k hold hnew => ?_⟩
  · rw [ChangedSites.of, hmem e he, Option.getD_some]
  · rw [ChangedSites.of, hother k hnew, get?_foldl_erase t changes _ k hold, ChangedSites.of]

end Vsql.Referential
