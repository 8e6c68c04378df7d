import Mathlib.Data.List.Nodup
import Mathlib.Data.List.Perm.Basic

/-!
# Maps that keep the order of insertion

Iterating over such a map gives the keys in the order in which they were first
set.  The keys are distinct by construction, so a lookup does not depend on the
order.
-/

namespace Vsql.Foundation

@[ext] structure OrderedMap (κ α : Type) where
  entries : List (κ × α)
  nodup : (entries.map Prod.fst).Nodup

namespace OrderedMap

variable {κ α β : Type} [DecidableEq κ]

def empty : OrderedMap κ α := ⟨[], List.nodup_nil⟩

instance : Inhabited (OrderedMap κ α) := ⟨empty⟩

instance [DecidableEq α] : DecidableEq (OrderedMap κ α) := fun m m' =>
  decidable_of_iff (m.entries = m'.entries) (by cases m; cases m'; simp)

def keys (m : OrderedMap κ α) : List κ := m.entries.map Prod.fst

def lookup (entries : List (κ × α)) (k : κ) : Option α :=
  (entries.find? (·.1 = k)).map Prod.snd

def get? (m : OrderedMap κ α) (k : κ) : Option α := lookup m.entries k

def contains (m : OrderedMap κ α) (k : κ) : Bool := m.keys.contains k

/-- The entries after `k` has been set to `v`, in its old place if it had one. -/
def setEntry (k : κ) (v : α) : List (κ × α) → List (κ × α)
  | [] => [(k, v)]
  | e :: entries =>
      if e.1 = k then (k, v) :: entries else e :: setEntry k v entries

theorem mem_keys_setEntry (k : κ) (v : α) (entries : List (κ × α)) (j : κ) :
    j ∈ (setEntry k v entries).map Prod.fst ↔
      j = k ∨ j ∈ entries.map Prod.fst := by
  induction entries with
  | nil => simp [setEntry]
  | cons e entries ih =>
      unfold setEntry
      split
      · next h =>
          subst h
          simp
      · rw [List.map_cons, List.mem_cons, ih, List.map_cons, List.mem_cons]
        tauto

theorem nodup_setEntry (k : κ) (v : α) {entries : List (κ × α)}
    (h : (entries.map Prod.fst).Nodup) :
    ((setEntry k v entries).map Prod.fst).Nodup := by
  induction entries with
  | nil => simp [setEntry]
  | cons e entries ih =>
      rw [List.map_cons, List.nodup_cons] at h
      unfold setEntry
      split
      · next hk =>
          subst hk
          simpa using h
      · next hk =>
          rw [List.map_cons, List.nodup_cons, mem_keys_setEntry]
          refine ⟨?_, ih h.2⟩
          rintro (heq | hmem)
          · exact hk heq
          · exact h.1 hmem

def set (m : OrderedMap κ α) (k : κ) (v : α) : OrderedMap κ α :=
  ⟨setEntry k v m.entries, nodup_setEntry k v m.nodup⟩

def erase (m : OrderedMap κ α) (k : κ) : OrderedMap κ α :=
  ⟨m.entries.filter (·.1 ≠ k), m.nodup.sublist (List.filter_sublist.map _)⟩

theorem lookup_eq_some {entries : List (κ × α)}
    (h : (entries.map Prod.fst).Nodup) {k : κ} {v : α} :
    lookup entries k = some v ↔ (k, v) ∈ entries := by
  induction entries with
  | nil => simp [lookup]
  | cons e entries ih =>
      rw [List.map_cons, List.nodup_cons] at h
      unfold lookup at ih ⊢
      rw [List.find?_cons]
      by_cases hk : e.1 = k
      · subst hk
        have hnot : (e.1, v) ∉ entries :=
          fun hmem => h.1 (List.mem_map.mpr ⟨(e.1, v), hmem, rfl⟩)
        simp [hnot, Prod.ext_iff, eq_comm]
      · have hne : (k, v) ≠ e := fun heq => hk (heq ▸ rfl)
        simp [hk, hne, ih h.2]

theorem get?_eq_some (m : OrderedMap κ α) {k : κ} {v : α} :
    m.get? k = some v ↔ (k, v) ∈ m.entries :=
  lookup_eq_some m.nodup

theorem get?_eq_none (m : OrderedMap κ α) {k : κ} :
    m.get? k = none ↔ k ∉ m.keys := by
  simp only [get?, lookup, keys, Option.map_eq_none_iff, List.find?_eq_none,
    decide_eq_true_eq, List.mem_map, not_exists, not_and]

theorem lookup_setEntry (k : κ) (v : α) (entries : List (κ × α)) (j : κ) :
    lookup (setEntry k v entries) j =
      if j = k then some v else lookup entries j := by
  induction entries with
  | nil =>
      by_cases h : j = k
      · simp [setEntry, lookup, h]
      · simp [setEntry, lookup, h, Ne.symm h]
  | cons e entries ih =>
      unfold setEntry
      unfold lookup at ih ⊢
      split
      · next hk =>
          subst hk
          by_cases h : j = e.1
          · simp [h]
          · simp [h, Ne.symm h]
      · next hk =>
          by_cases h : e.1 = j
          · subst h
            simp [hk]
          · simpa [h] using ih

@[simp] theorem get?_set (m : OrderedMap κ α) (k : κ) (v : α) (j : κ) :
    (m.set k v).get? j = if j = k then some v else m.get? j :=
  lookup_setEntry k v m.entries j

@[simp] theorem get?_empty (j : κ) : (empty : OrderedMap κ α).get? j = none :=
  rfl

@[simp] theorem mem_keys_set (m : OrderedMap κ α) (k : κ) (v : α) (j : κ) :
    j ∈ (m.set k v).keys ↔ j = k ∨ j ∈ m.keys :=
  mem_keys_setEntry k v m.entries j

@[simp] theorem get?_erase (m : OrderedMap κ α) (k j : κ) :
    (m.erase k).get? j = if j = k then none else m.get? j := by
  by_cases h : j = k
  · rw [if_pos h, get?_eq_none]
    simp [keys, erase, h]
  · rw [if_neg h]
    refine Option.ext fun v => ?_
    rw [get?_eq_some, get?_eq_some]
    simp [erase, h]

theorem setEntry_of_not_mem {k : κ} (v : α) {entries : List (κ × α)}
    (h : k ∉ entries.map Prod.fst) :
    setEntry k v entries = entries ++ [(k, v)] := by
  induction entries with
  | nil => rfl
  | cons e entries ih =>
      rw [List.map_cons, List.mem_cons, not_or] at h
      rw [setEntry, if_neg (Ne.symm h.1), ih h.2, List.cons_append]

theorem keys_set_of_mem {m : OrderedMap κ α} {k : κ} (v : α) (h : k ∈ m.keys) :
    (m.set k v).keys = m.keys := by
  have hentries : ∀ entries : List (κ × α), k ∈ entries.map Prod.fst →
      (setEntry k v entries).map Prod.fst = entries.map Prod.fst := by
    intro entries hmem
    induction entries with
    | nil => cases hmem
    | cons e entries ih =>
        rw [setEntry]
        split
        · next hk => simp [hk]
        · next hk =>
            rw [List.map_cons, List.mem_cons] at hmem
            rw [List.map_cons, ih (hmem.resolve_left (Ne.symm hk)), List.map_cons]
  exact hentries m.entries h

/-! ## Setting entries one after the other -/

def setAll (entries : List (κ × α)) (m : OrderedMap κ α) : OrderedMap κ α :=
  entries.foldl (fun m e => m.set e.1 e.2) m

theorem entries_setAll {entries : List (κ × α)} {m : OrderedMap κ α}
    (h : ((m.entries ++ entries).map Prod.fst).Nodup) :
    (setAll entries m).entries = m.entries ++ entries := by
  induction entries generalizing m with
  | nil => simp [setAll]
  | cons e entries ih =>
      have hnew : e.1 ∉ m.entries.map Prod.fst := by
        rw [List.map_append, List.nodup_append] at h
        intro hmem
        exact h.2.2 e.1 hmem e.1 (by simp) rfl
      have hentries : (m.set e.1 e.2).entries = m.entries ++ [e] :=
        setEntry_of_not_mem e.2 hnew
      have hrest := ih (m := m.set e.1 e.2) (by simpa [hentries] using h)
      rw [setAll, List.foldl_cons]
      rw [setAll] at hrest
      rw [hrest, hentries]
      simp

theorem get?_setAll_of_not_mem {entries : List (κ × α)} {m : OrderedMap κ α} {k : κ}
    (h : k ∉ entries.map Prod.fst) : (setAll entries m).get? k = m.get? k := by
  induction entries generalizing m with
  | nil => rfl
  | cons e entries ih =>
      rw [List.map_cons, List.mem_cons, not_or] at h
      rw [setAll, List.foldl_cons]
      have hrest := ih (m := m.set e.1 e.2) h.2
      rw [setAll] at hrest
      rw [hrest, get?_set, if_neg h.1]

theorem get?_setAll_of_mem {entries : List (κ × α)} {m : OrderedMap κ α} {k : κ} {v : α}
    (h : (entries.map Prod.fst).Nodup) (hmem : (k, v) ∈ entries) :
    (setAll entries m).get? k = some v := by
  induction entries generalizing m with
  | nil => cases hmem
  | cons e entries ih =>
      rw [List.map_cons, List.nodup_cons] at h
      rw [setAll, List.foldl_cons]
      obtain rfl | hmem := List.mem_cons.mp hmem
      · have hrest := get?_setAll_of_not_mem (m := m.set k v) h.1
        rw [setAll] at hrest
        rw [hrest, get?_set, if_pos rfl]
      · exact ih h.2 hmem

/-! ## New keys -/

section

variable {ι : Type} [DecidableEq ι] {f : κ → ι} {m : OrderedMap κ α}

omit [DecidableEq κ] in
theorem entries_foldl_set_map (h : (m.keys.map f).Nodup) :
    (m.entries.foldl (fun m' e => m'.set (f e.1) e.2) empty).entries =
      m.entries.map fun e => (f e.1, e.2) := by
  have hset : m.entries.foldl (fun m' e => m'.set (f e.1) e.2) empty =
      setAll (m.entries.map fun e => (f e.1, e.2)) empty := by
    rw [setAll, List.foldl_map]
  rw [hset]
  refine entries_setAll ?_
  simpa [empty, keys, Function.comp_def] using h

theorem get?_foldl_set_map (h : (m.keys.map f).Nodup) {k : κ} (hk : k ∈ m.keys) :
    (m.entries.foldl (fun m' e => m'.set (f e.1) e.2) empty).get? (f k) = m.get? k := by
  obtain ⟨⟨k, v⟩, hmem, rfl⟩ := List.mem_map.mp hk
  rw [(get?_eq_some m).mpr hmem, get?_eq_some, entries_foldl_set_map h]
  exact List.mem_map.mpr ⟨(k, v), hmem, rfl⟩

end

end OrderedMap
end Vsql.Foundation
