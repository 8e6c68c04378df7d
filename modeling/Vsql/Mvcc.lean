import Mathlib.Data.List.TakeWhile
import Vsql.Error

/-!
# Transaction ids and visibility

The active transaction ids occupy 256 slots of the database header.  A slot
holding zero is free, and `slotEnd` is one more than the last slot in use, so
that only the slots before it have to be searched.
-/

namespace Vsql

def transactionSlots : Nat := 256

structure TransactionIds where
  tids : List Nat
  slotEnd : Nat
  length_tids : tids.length = transactionSlots
  free : ∀ tid ∈ tids.drop slotEnd, tid = 0
  deriving DecidableEq

namespace TransactionIds

def empty : TransactionIds :=
  ⟨List.replicate transactionSlots 0, 0, List.length_replicate,
    fun _ h => List.eq_of_mem_replicate h⟩

/-- `slotEnd` again, after `tids` has been changed directly. -/
def updateEnd (tids : List Nat) : Nat :=
  tids.length - (tids.reverse.takeWhile (· = 0)).length

private theorem free_updateEnd (tids : List Nat) :
    ∀ tid ∈ tids.drop (updateEnd tids), tid = 0 := by
  intro tid h
  have hdrop : tids.drop (updateEnd tids) =
      (tids.reverse.takeWhile (· = 0)).reverse := by
    have hprefix := List.takeWhile_prefix (l := tids.reverse) (fun tid => tid = 0)
    have htake := List.prefix_iff_eq_take.mp hprefix
    rw [List.take_reverse] at htake
    rw [htake, List.reverse_reverse]
    rfl
  rw [hdrop, List.mem_reverse] at h
  simpa using List.mem_takeWhile_imp h

/-- Slots that were changed directly. -/
def ofSlots (tids : List Nat) (h : tids.length = transactionSlots) : TransactionIds :=
  ⟨tids, updateEnd tids, h, free_updateEnd tids⟩

private theorem free_set {tids : List Nat} {slotEnd i tid : Nat}
    (h : ∀ tid ∈ tids.drop slotEnd, tid = 0) :
    ∀ other ∈ (tids.set i tid).drop (max slotEnd (i + 1)), other = 0 := by
  intro other hother
  rw [List.drop_set_of_lt (by omega)] at hother
  exact h other (List.drop_subset_drop_left _ (Nat.le_max_left _ _) hother)

def add (t : TransactionIds) (transactionId : Nat) :
    Except Failure TransactionIds :=
  match t.tids.findIdx? (· = 0) with
  | some i =>
      .ok ⟨t.tids.set i transactionId, max t.slotEnd (i + 1),
        by simpa using t.length_tids, free_set t.free⟩
  | none => .error (sqlstate0B000 "max concurrent transactions reached")

def remove (t : TransactionIds) (transactionId : Nat) : TransactionIds :=
  match t.tids.findIdx? (· = transactionId) with
  | some i =>
      ⟨t.tids.set i 0, updateEnd (t.tids.set i 0),
        by simpa using t.length_tids, free_updateEnd _⟩
  | none => t

def contains (t : TransactionIds) (transactionId : Nat) : Bool :=
  (t.tids.take t.slotEnd).contains transactionId

theorem contains_iff (t : TransactionIds) {tid : Nat} (h : tid ≠ 0) :
    t.contains tid ↔ tid ∈ t.tids := by
  unfold contains
  rw [List.contains_iff_mem]
  constructor
  · exact fun hmem => List.mem_of_mem_take hmem
  · intro hmem
    rw [← List.take_append_drop t.slotEnd t.tids, List.mem_append] at hmem
    rcases hmem with hmem | hmem
    · exact hmem
    · exact absurd (t.free tid hmem) h

/-- No id has two slots. -/
def Distinct (t : TransactionIds) : Prop :=
  t.tids.Pairwise fun a b => a = b → a = 0

theorem distinct_empty : empty.Distinct :=
  List.pairwise_replicate.mpr (.inr fun _ => rfl)

theorem mem_add {t u : TransactionIds} {tid : Nat} (h : t.add tid = .ok u)
    {other : Nat} (hother : other ≠ 0) :
    other ∈ u.tids ↔ other = tid ∨ other ∈ t.tids := by
  unfold add at h
  cases hi : t.tids.findIdx? (· = 0) with
  | none =>
      simp only [hi] at h
      cases h
  | some i =>
      simp only [hi] at h
      cases h
      obtain ⟨hlt, hzero, -⟩ := List.findIdx?_eq_some_iff_getElem.mp hi
      simp only [decide_eq_true_eq] at hzero
      constructor
      · intro hmem
        rcases List.mem_or_eq_of_mem_set hmem with hmem | rfl
        · exact .inr hmem
        · exact .inl rfl
      · rintro (rfl | hmem)
        · exact List.mem_set hlt _
        · obtain ⟨j, hj, rfl⟩ := List.mem_iff_getElem.mp hmem
          have hne : i ≠ j := by
            rintro rfl
            exact hother hzero
          exact List.mem_iff_getElem.mpr ⟨j, by simpa using hj, by simp [hne]⟩

theorem distinct_add {t u : TransactionIds} {tid : Nat} (h : t.add tid = .ok u)
    (ht : t.Distinct) (hnew : tid ∉ t.tids) : u.Distinct := by
  unfold add at h
  cases hi : t.tids.findIdx? (· = 0) with
  | none =>
      simp only [hi] at h
      cases h
  | some i =>
      simp only [hi] at h
      cases h
      unfold Distinct at ht ⊢
      rw [List.pairwise_iff_getElem] at ht ⊢
      intro j k hj hk hjk heq
      simp only [List.length_set] at hj hk
      simp only [List.getElem_set] at heq ⊢
      split at heq <;> split at heq
      · omega
      · exact absurd (heq ▸ List.getElem_mem hk) hnew
      · exact absurd (heq ▸ List.getElem_mem hj) hnew
      · rw [if_neg ‹_›]
        exact ht j k hj hk hjk heq

theorem mem_remove_of_ne {t : TransactionIds} {tid other : Nat} (hne : other ≠ tid)
    (hother : other ≠ 0) : other ∈ (t.remove tid).tids ↔ other ∈ t.tids := by
  unfold remove
  cases hi : t.tids.findIdx? (· = tid) with
  | none => rfl
  | some i =>
      obtain ⟨hlt, htid, -⟩ := List.findIdx?_eq_some_iff_getElem.mp hi
      simp only [decide_eq_true_eq] at htid
      constructor
      · intro hmem
        rcases List.mem_or_eq_of_mem_set hmem with hmem | rfl
        · exact hmem
        · exact absurd rfl hother
      · intro hmem
        obtain ⟨j, hj, rfl⟩ := List.mem_iff_getElem.mp hmem
        have hij : i ≠ j := by
          rintro rfl
          exact hne htid
        exact List.mem_iff_getElem.mpr ⟨j, by simpa using hj, by simp [hij]⟩

theorem not_mem_remove {t : TransactionIds} {tid : Nat} (ht : t.Distinct)
    (htid : tid ≠ 0) : tid ∉ (t.remove tid).tids := by
  unfold remove
  cases hi : t.tids.findIdx? (· = tid) with
  | none =>
      intro hmem
      have := List.findIdx?_eq_none_iff.mp hi tid hmem
      simp at this
  | some i =>
      obtain ⟨hlt, hi, -⟩ := List.findIdx?_eq_some_iff_getElem.mp hi
      simp only [decide_eq_true_eq] at hi
      intro hmem
      obtain ⟨j, hj, hget⟩ := List.mem_iff_getElem.mp hmem
      simp only [List.length_set] at hj
      simp only [List.getElem_set] at hget
      split at hget
      · exact htid hget.symm
      · next hne =>
        rw [Distinct, List.pairwise_iff_getElem] at ht
        rcases Nat.lt_or_gt_of_ne hne with hlt' | hgt
        · exact htid (hi ▸ ht i j hlt hj hlt' (hi.trans hget.symm))
        · exact htid (hget ▸ ht j i hj hlt hgt (hget.trans hi.symm))

/-- Removing an id that was added leaves the ids that there were. -/
theorem mem_remove_add {t u : TransactionIds} {tid : Nat} (h : t.add tid = .ok u)
    (ht : t.Distinct) (hnew : tid ∉ t.tids) {other : Nat} (hother : other ≠ 0) :
    other ∈ (u.remove tid).tids ↔ other ∈ t.tids := by
  by_cases heq : other = tid
  · subst heq
    exact iff_of_false (not_mem_remove (distinct_add h ht hnew) hother) hnew
  · rw [mem_remove_of_ne heq hother, mem_add h hother]
    simp [heq]

theorem distinct_remove {t : TransactionIds} (ht : t.Distinct) (tid : Nat) :
    (t.remove tid).Distinct := by
  unfold remove
  cases t.tids.findIdx? (· = tid) with
  | none => exact ht
  | some i =>
      unfold Distinct at ht ⊢
      rw [List.pairwise_iff_getElem] at ht ⊢
      intro j k hj hk hjk heq
      simp only [List.length_set] at hj hk
      simp only [List.getElem_set] at heq ⊢
      split at heq <;> split at heq
      · omega
      · rw [if_pos ‹_›]
      · rw [if_neg ‹_›]
        exact heq
      · rw [if_neg ‹_›]
        exact ht j k hj hk hjk heq

end TransactionIds

def objectIsVisible (objectTid objectXid currentTid : Nat)
    (activeTids : TransactionIds) : Bool :=
  -- The record was created in an active transaction that is not our own.
  if activeTids.contains objectTid && objectTid ≠ currentTid then false
  -- The record is expired, and no other active transaction holds the expiry.
  else if objectXid ≠ 0 &&
      (!activeTids.contains objectXid || objectXid = currentTid) then false
  else true

end Vsql
