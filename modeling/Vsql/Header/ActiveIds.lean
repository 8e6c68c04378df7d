import Mathlib.Algebra.Order.Group.Multiset
import Mathlib.Data.List.Induction
import Vsql.Foundation.Runs
import Vsql.Header.Codec

/-!
# The active transaction ids as a multiset

The 256 slots of the header stand for a multiset of ids: it does not matter in which of the
slots an id is.  Zero is no id but a free slot, and an id that is added twice has two slots.
-/

namespace Vsql

open Foundation

namespace TransactionIds

inductive IdCall where
  | add (transactionId : Nat)
  | remove (transactionId : Nat)
  | contains (transactionId : Nat)
  deriving DecidableEq

/-- Only `contains` has a result. -/
def slots : Machine TransactionIds IdCall (Except Failure (Option Bool)) where
  step t
    | .add tid =>
        match t.add tid with
        | .ok u => (.ok none, u)
        | .error e => (.error e, t)
    | .remove tid => (.ok none, t.remove tid)
    | .contains tid => (.ok (some (t.contains tid)), t)

/-! ## The multiset -/

/-- The ids that the slots hold. -/
def idsOf (tids : List Nat) : Multiset Nat := Multiset.ofList (tids.filter (· ≠ 0))

def active (t : TransactionIds) : Multiset Nat := idsOf t.tids

def activeIds : Machine (Multiset Nat) IdCall (Except Failure (Option Bool)) where
  step m
    | .add tid =>
        if m.card = transactionSlots then
          (.error (sqlstate0B000 "max concurrent transactions reached"), m)
        else (.ok none, if tid = 0 then m else tid ::ₘ m)
    | .remove tid => (.ok none, m.erase tid)
    | .contains tid => (.ok (some (decide (tid ∈ m))), m)

theorem mem_active {t : TransactionIds} {tid : Nat} : tid ∈ t.active ↔ tid ≠ 0 ∧ tid ∈ t.tids := by
  simp [active, idsOf, and_comm]

theorem contains_eq (t : TransactionIds) {tid : Nat} (h : tid ≠ 0) :
    t.contains tid = decide (tid ∈ t.active) := by
  rw [Bool.eq_iff_iff, contains_iff t h, decide_eq_true_eq, mem_active]
  exact (and_iff_right h).symm

/-- What a slot that holds `tid` contributes. -/
def copies (tid : Nat) : Multiset Nat := if tid = 0 then 0 else {tid}

theorem idsOf_split (a b : List Nat) (tid : Nat) :
    idsOf (a ++ tid :: b) = idsOf (a ++ b) + copies tid := by
  unfold idsOf copies
  by_cases h : tid = 0
  · rw [if_pos h, List.filter_append, List.filter_cons_of_neg (by simpa using h),
      ← List.filter_append, add_zero]
  · rw [if_neg h, List.filter_append, List.filter_cons_of_pos (by simpa using h), add_comm,
      Multiset.singleton_add, List.filter_append]
    exact Multiset.coe_eq_coe.2 List.perm_middle

theorem idsOf_set {tids : List Nat} {i : Nat} (hi : i < tids.length) (tid : Nat) :
    idsOf (tids.set i tid) + copies tids[i] = idsOf tids + copies tid := by
  have hsplit : tids = tids.take i ++ tids[i] :: tids.drop (i + 1) := by
    rw [List.getElem_cons_drop, List.take_append_drop]
  rw [List.set_eq_take_append_cons_drop, if_pos hi, idsOf_split]
  conv_rhs => rw [hsplit, idsOf_split]
  exact add_right_comm _ _ _

theorem card_idsOf_of_full {tids : List Nat} (h : ∀ tid ∈ tids, tid ≠ 0) :
    (idsOf tids).card = tids.length := by
  rw [idsOf, Multiset.coe_card, List.filter_eq_self.2]
  simpa using h

theorem card_idsOf_of_free {tids : List Nat} (h : 0 ∈ tids) :
    (idsOf tids).card < tids.length := by
  rw [idsOf, Multiset.coe_card]
  exact List.length_filter_lt_length_iff_exists.2 ⟨0, h, by simp⟩

/-! ## Calls -/

theorem active_add (t : TransactionIds) (tid : Nat) :
    (slots.step t (.add tid)).1 = (activeIds.step t.active (.add tid)).1 ∧
      (slots.step t (.add tid)).2.active = (activeIds.step t.active (.add tid)).2 := by
  unfold slots activeIds add active
  dsimp only
  cases hi : t.tids.findIdx? (· = 0) with
  | none =>
      have hnone := List.findIdx?_eq_none_iff.1 hi
      have hfull := card_idsOf_of_full fun tid htid => by simpa using hnone tid htid
      rw [if_pos (hfull.trans t.length_tids)]
      exact ⟨rfl, rfl⟩
  | some i =>
      obtain ⟨hlt, hzero, -⟩ := List.findIdx?_eq_some_iff_getElem.1 hi
      rw [decide_eq_true_eq] at hzero
      have hfree := card_idsOf_of_free (hzero ▸ List.getElem_mem hlt)
      rw [t.length_tids] at hfree
      have hset := idsOf_set hlt tid
      rw [hzero, copies, if_pos rfl, add_zero] at hset
      rw [if_neg hfree.ne]
      refine ⟨rfl, hset.trans ?_⟩
      unfold copies
      split
      · exact add_zero _
      · rw [add_comm, Multiset.singleton_add]

theorem active_remove (t : TransactionIds) (tid : Nat) :
    (t.remove tid).active = t.active.erase tid := by
  unfold remove active
  cases hi : t.tids.findIdx? (· = tid) with
  | none =>
      have hnone := List.findIdx?_eq_none_iff.1 hi
      have hmem : tid ∉ idsOf t.tids := fun h => by
        simpa using hnone tid (mem_active.1 h).2
      exact (Multiset.erase_of_notMem hmem).symm
  | some i =>
      obtain ⟨hlt, htid, -⟩ := List.findIdx?_eq_some_iff_getElem.1 hi
      rw [decide_eq_true_eq] at htid
      have hset := idsOf_set hlt 0
      rw [htid, copies, copies, if_pos rfl, add_zero] at hset
      dsimp only
      rw [← hset]
      split
      · next hzero =>
          rw [add_zero, Multiset.erase_of_notMem]
          subst hzero
          simp [idsOf]
      · rw [add_comm, Multiset.singleton_add, Multiset.erase_cons_head]

theorem active_step (t : TransactionIds) {call : IdCall} (h : call ≠ .contains 0) :
    (slots.step t call).1 = (activeIds.step t.active call).1 ∧
      (slots.step t call).2.active = (activeIds.step t.active call).2 := by
  cases call with
  | add tid => exact active_add t tid
  | remove tid => exact ⟨rfl, active_remove t tid⟩
  | contains tid =>
      have htid : tid ≠ 0 := fun hzero => h (hzero ▸ rfl)
      exact ⟨congrArg (fun found => Except.ok (some found)) (contains_eq t htid), rfl⟩

theorem active_run (t : TransactionIds) {calls : List IdCall} (h : .contains 0 ∉ calls) :
    slots.outputs t calls = activeIds.outputs t.active calls ∧
      (slots.after t calls).active = activeIds.after t.active calls := by
  induction calls generalizing t with
  | nil => exact ⟨rfl, rfl⟩
  | cons call calls ih =>
      rw [List.mem_cons, not_or] at h
      obtain ⟨hout, hnext⟩ := active_step t (Ne.symm h.1)
      obtain ⟨houts, hafter⟩ := ih (slots.step t call).2 h.2
      rw [hnext] at houts hafter
      exact ⟨List.cons_eq_cons.2 ⟨hout, houts⟩, hafter⟩

/-! ## The end of the slots in use -/

/-- Only free slots come after `slotEnd`, and the slot before it is taken. -/
structure IsEnd (tids : List Nat) (slotEnd : Nat) : Prop where
  free : ∀ tid ∈ tids.drop slotEnd, tid = 0
  taken : ∀ k, slotEnd = k + 1 → ∃ tid, tids[k]? = some tid ∧ tid ≠ 0

theorem IsEnd.le {tids : List Nat} {m n : Nat} (h : IsEnd tids m) (h' : IsEnd tids n) : m ≤ n := by
  by_contra hlt
  obtain ⟨k, rfl⟩ : ∃ k, m = k + 1 := ⟨m - 1, by omega⟩
  obtain ⟨tid, htid, hne⟩ := h.taken k rfl
  obtain ⟨hk, rfl⟩ := List.getElem?_eq_some_iff.1 htid
  exact hne (h'.free _ (List.mem_drop_iff_getElem.2 ⟨k - n, by omega, by congr 1; omega⟩))

theorem updateEnd_append_zero (tids : List Nat) : updateEnd (tids ++ [0]) = updateEnd tids := by
  simp [updateEnd]

theorem updateEnd_append {tid : Nat} (h : tid ≠ 0) (tids : List Nat) :
    updateEnd (tids ++ [tid]) = tids.length + 1 := by
  simp [updateEnd, h]

theorem updateEnd_le (tids : List Nat) : updateEnd tids ≤ tids.length := Nat.sub_le _ _

theorem isEnd_updateEnd (tids : List Nat) : IsEnd tids (updateEnd tids) := by
  induction tids using List.reverseRecOn with
  | nil => exact ⟨by simp, fun k hk => by cases hk⟩
  | append_singleton tids tid ih =>
      by_cases h : tid = 0
      · subst h
        rw [updateEnd_append_zero]
        constructor
        · intro tid htid
          rw [List.drop_append_of_le_length (updateEnd_le tids), List.mem_append,
            List.mem_singleton] at htid
          exact htid.elim (ih.free tid) id
        · intro k hk
          obtain ⟨tid, htid, hne⟩ := ih.taken k hk
          exact ⟨tid, List.getElem?_append_left (List.getElem?_eq_some_iff.1 htid).1 ▸ htid, hne⟩
      · rw [updateEnd_append h]
        constructor
        · intro tid htid
          simp at htid
        · intro k hk
          cases hk
          exact ⟨tid, by simp, h⟩

theorem eq_updateEnd {tids : List Nat} {slotEnd : Nat} (h : IsEnd tids slotEnd) :
    slotEnd = updateEnd tids :=
  Nat.le_antisymm (h.le (isEnd_updateEnd tids)) ((isEnd_updateEnd tids).le h)

theorem IsEnd.set {tids : List Nat} {slotEnd i tid : Nat} (h : IsEnd tids slotEnd)
    (hi : i < tids.length) (htid : tid ≠ 0) : IsEnd (tids.set i tid) (max slotEnd (i + 1)) := by
  constructor
  · intro other hother
    rw [List.drop_set_of_lt (by omega)] at hother
    exact h.free other (List.drop_subset_drop_left _ (Nat.le_max_left _ _) hother)
  · intro k hk
    by_cases hik : i = k
    · subst hik
      exact ⟨tid, List.getElem?_set_self hi, htid⟩
    · obtain ⟨other, hother, hne⟩ := h.taken k (by omega)
      exact ⟨other, (List.getElem?_set_ne hik).trans hother, hne⟩

/-- What was stored and read again has the same `slotEnd`. -/
theorem slotEnd_step {t : TransactionIds} (h : t.slotEnd = updateEnd t.tids) {call : IdCall}
    (hcall : call ≠ .add 0) :
    (slots.step t call).2.slotEnd = updateEnd (slots.step t call).2.tids := by
  cases call with
  | add tid =>
      have htid : tid ≠ 0 := fun hzero => hcall (hzero ▸ rfl)
      unfold slots add
      dsimp only
      cases hi : t.tids.findIdx? (· = 0) with
      | none => exact h
      | some i =>
          obtain ⟨hlt, -⟩ := List.findIdx?_eq_some_iff_getElem.1 hi
          have hend : IsEnd t.tids t.slotEnd := h ▸ isEnd_updateEnd t.tids
          exact eq_updateEnd (hend.set hlt htid)
  | remove tid =>
      change (t.remove tid).slotEnd = updateEnd (t.remove tid).tids
      unfold remove
      split
      · rfl
      · exact h
  | contains tid => exact h

theorem slotEnd_run {t : TransactionIds} (h : t.slotEnd = updateEnd t.tids) {calls : List IdCall}
    (hcalls : .add 0 ∉ calls) :
    (slots.after t calls).slotEnd = updateEnd (slots.after t calls).tids := by
  induction calls generalizing t with
  | nil => exact h
  | cons call calls ih =>
      rw [List.mem_cons, not_or] at hcalls
      exact ih (slotEnd_step h (Ne.symm hcalls.1)) hcalls.2

/-! ## The header and its ids -/

/-- A header is read back from its bytes, and written as the bytes it was read from.  Its slots
answer as the multiset of the ids in them does, and after any calls they are read back. -/
theorem header_and_activeIds :
    (∀ data h, newHeaderFromBytes data = .ok h → h.Openable ∧ h.bytes = data.take headerSize) ∧
      (∀ h : FileHeader, h.Openable → newHeaderFromBytes h.bytes = .ok h) ∧
      (∀ (t : TransactionIds) (calls : List IdCall), .contains 0 ∉ calls →
        slots.outputs t calls = activeIds.outputs t.active calls ∧
          (slots.after t calls).active = activeIds.after t.active calls) ∧
      ∀ (t : TransactionIds) (calls : List IdCall), t.slotEnd = updateEnd t.tids →
        .add 0 ∉ calls → (slots.after t calls).slotEnd = updateEnd (slots.after t calls).tids :=
  ⟨fun _ _ => FileHeader.of_newHeaderFromBytes, fun _ => FileHeader.newHeaderFromBytes_bytes,
    fun t _ => active_run t, fun _ _ h hcalls => slotEnd_run h hcalls⟩

def holeCalls : List IdCall :=
  [.add 5, .add 6, .remove 5, .contains 6, .contains 5, .add 7, .remove 6, .contains 7]

theorem length_reserved_zeros :
    (List.replicate (headerSize - headerReservedOffset) (0 : UInt8)).length =
      headerSize - headerReservedOffset := List.length_replicate

/-- The header of a file in which the first slot was freed and taken again. -/
def holeHeader : FileHeader where
  readVersion := 1
  writeVersion := 1
  schemaVersion := 0
  pageSize := 4096
  rootPage := 0
  transactionId := 7
  rowId := 0
  activeTransactionIds := slots.after .empty holeCalls
  tableId := 0
  indexId := 0
  reserved := List.replicate (headerSize - headerReservedOffset) 0
  tids_lt := by decide +kernel
  length_reserved := length_reserved_zeros

theorem header_and_activeIds_hole :
    slots.outputs .empty holeCalls = [.ok none, .ok none, .ok none, .ok (some true),
      .ok (some false), .ok none, .ok none, .ok (some true)] ∧
      (slots.after .empty holeCalls).active = {7} ∧
      newHeaderFromBytes holeHeader.bytes = .ok holeHeader ∧
      holeHeader.bytes = holeHeader.bytes.take headerSize := by
  obtain ⟨hencode, hdecode, hcalls, hend⟩ := header_and_activeIds
  obtain ⟨houtputs, hactive⟩ := hcalls .empty holeCalls (by decide)
  have hopen : holeHeader.Openable :=
    ⟨by decide, by decide, hend .empty holeCalls (by decide +kernel) (by decide)⟩
  have hread := hdecode holeHeader hopen
  exact ⟨houtputs.trans (by decide +kernel), hactive.trans (by decide +kernel), hread,
    (hencode _ _ hread).2⟩

/-- The id was added, and has not been removed since. -/
def addedSince (tid : Nat) (calls : List IdCall) : Bool :=
  calls.foldl (fun added call =>
    if call = .add tid then true else if call = .remove tid then false else added) false

/-- A free slot before `slotEnd` is found as the id zero, and an id that was added twice is still
there after it was removed. -/
theorem not_contains_iff_addedSince :
    (¬∀ calls, (slots.after .empty calls).contains 0 = addedSince 0 calls) ∧
      ¬∀ calls, (slots.after .empty calls).contains 5 = addedSince 5 calls := by
  constructor
  · intro h
    have hcalls := h [.add 5, .add 6, .remove 5]
    revert hcalls
    decide +kernel
  · intro h
    have hcalls := h [.add 5, .add 5, .remove 5]
    revert hcalls
    decide +kernel

end TransactionIds
end Vsql
