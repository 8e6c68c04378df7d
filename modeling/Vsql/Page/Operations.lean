import Vsql.Foundation.Runs
import Vsql.Foundation.StateError
import Vsql.Page.Buffer

/-!
# Changing a page in place

Every operation on a page reads all of its objects and writes them again from the start of
the buffer.  What is left behind the last object is not cleared, and an operation that
fails may have written some of the objects.
-/

namespace Vsql

open Foundation
open Foundation.StateError
open Rows

namespace PageImage

variable {size : PageSize}

/-! ## Operations -/

/-- Every operation stops when it would write past the end of the page. -/
def write (offset : Nat) (s : Bytes) : EStateM Failure (PageImage size) Unit := fun page =>
  if h : offset + s.length ≤ page.data.length then
    .ok () { page with
      data := page.data.take offset ++ s ++ page.data.drop (offset + s.length)
      length_data := by
        have hlength := page.length_data
        simp only [List.length_append, List.length_take, List.length_drop]
        omega }
  else .error pastEnd page

def writeAll : Nat → List PageObject → EStateM Failure (PageImage size) Unit
  | _, [] => pure ()
  | offset, object :: objects => do
      write offset object.bytes
      writeAll (offset + object.bytes.length) objects

/-- `sort_with_compare`, which does not say in which order it leaves the objects that have
the same key. -/
structure KeySort where
  sort : List PageObject → List PageObject
  perm : ∀ objects, (sort objects).Perm objects
  sorted : ∀ objects, (sort objects).Pairwise fun a b => a.key ≤ b.key

def KeySort.stable : KeySort := ⟨sortObjects, sortObjects_perm, sortObjects_sorted⟩

def versions (key : Bytes) (objects : List PageObject) : List Nat :=
  (objects.filter (·.key = key)).map (·.tid)

def add (sort : KeySort) (obj : PageObject) : EStateM Failure (PageImage size) Unit := do
  let page ← get
  if page.used.toNat + obj.length > size then
    throw (.panic (s!"page cannot fit object of {obj.length} b in page " ++
      s!"using {page.used.toNat} b"))
  else do
    let objects ← ofExcept page.objects
    if (versions obj.key objects).length ≥ 2 then throw Page.concurrentWrite
    else do
      writeAll 0 (sort.sort (objects ++ [obj]))
      modify fun page => { page with used := page.used + UInt16.ofNat obj.length }

def deleteFrom (key : Bytes) (tid : Nat) :
    List PageObject → Nat → Bool → EStateM Failure (PageImage size) Bool
  | [], _, didDelete => pure didDelete
  | object :: objects, offset, didDelete =>
      if object.key = key ∧ object.tid = tid then do
        modify fun page => { page with used := page.used - UInt16.ofNat object.length }
        deleteFrom key tid objects offset true
      else do
        write offset object.bytes
        deleteFrom key tid objects (offset + object.bytes.length) didDelete

def delete (key : Bytes) (tid : Nat) : EStateM Failure (PageImage size) Bool := do
  let page ← get
  let objects ← ofExcept page.objects
  deleteFrom key tid objects 0 false

def expireFrom (key : Bytes) (tid xid : Nat) :
    List PageObject → Nat → Bool → EStateM Failure (PageImage size) Bool
  | [], _, modified => pure modified
  | object :: objects, offset, modified =>
      if object.key = key ∧ object.tid = tid then
        if xid ≠ 0 ∧ object.xid ≠ 0 ∧ object.xid ≠ xid then throw Page.concurrentWrite
        else do
          write offset { object with xid := xid }.bytes
          expireFrom key tid xid objects (offset + { object with xid := xid }.bytes.length) true
      else do
        write offset object.bytes
        expireFrom key tid xid objects (offset + object.bytes.length) modified

/-- When it fails, the objects before the one that it fails at have been written. -/
def expire (key : Bytes) (tid xid : Nat) : EStateM Failure (PageImage size) Bool := do
  let page ← get
  let objects ← ofExcept page.objects
  expireFrom key tid xid objects 0 false

def update (old : PageObject) (tid : Nat) : EStateM Failure (PageImage size) Unit := do
  let page ← get
  let objects ← ofExcept page.objects
  match versions old.key objects with
  | [version] =>
      if version = tid then do
        let _ ← delete old.key tid
      else do
        let _ ← expire old.key version tid
  | [_, _] => do
      let _ ← delete old.key tid
  | _ => pure ()

/-! ## Writing -/

/-- What was written from `offset` on, and by how much `used` has become less. -/
structure Wrote (page : PageImage size) (offset : Nat) (s : Bytes) (removed : Nat)
    (page' : PageImage size) : Prop where
  kind : page'.kind = page.kind
  data : page'.data = page.data.take offset ++ s ++ page.data.drop (offset + s.length)
  used : page'.used.toNat + removed = page.used.toNat

theorem Wrote.nil (page : PageImage size) (offset : Nat) : Wrote page offset [] 0 page :=
  ⟨rfl, by simp, rfl⟩

theorem Wrote.append {page page₁ page₂ : PageImage size} {offset : Nat} {s t : Bytes}
    {m n : Nat} (hfits : offset ≤ page.data.length) (h : Wrote page offset s m page₁)
    (h' : Wrote page₁ (offset + s.length) t n page₂) :
    Wrote page offset (s ++ t) (m + n) page₂ := by
  constructor
  · rw [h'.kind, h.kind]
  · have hstart : (page.data.take offset ++ s).length = offset + s.length := by
      rw [List.length_append, List.length_take, Nat.min_eq_left hfits]
    have hrest : (page.data.take offset ++ s ++ page.data.drop (offset + s.length)).drop
        (offset + s.length + t.length) = page.data.drop (offset + (s ++ t).length) := by
      rw [List.drop_append, List.drop_eq_nil_of_le (by omega), hstart, List.drop_drop,
        List.length_append, List.nil_append]
      congr 1
      omega
    rw [h'.data, h.data, List.take_left' hstart, hrest, List.append_assoc _ s t]
  · have hused := h.used
    have hused' := h'.used
    omega

theorem write_eq (page : PageImage size) (offset : Nat) (s : Bytes)
    (h : offset + s.length ≤ page.data.length) :
    ∃ page', write offset s page = .ok () page' ∧ Wrote page offset s 0 page' := by
  unfold write
  rw [dif_pos h]
  exact ⟨_, rfl, rfl, rfl, rfl⟩

theorem Wrote.length_data {page page' : PageImage size} {offset removed : Nat} {s : Bytes}
    (_h : Wrote page offset s removed page') : page'.data.length = page.data.length := by
  rw [page'.length_data, page.length_data]

theorem toNat_used_sub {used : UInt16} {n : Nat} (h : n ≤ used.toNat) :
    (used - UInt16.ofNat n).toNat + n = used.toNat := by
  have hlt := used.toNat_lt
  have hn : (UInt16.ofNat n).toNat = n := by simp; omega
  rw [UInt16.toNat_sub_of_le _ _ (UInt16.le_iff_toNat_le.2 (by omega)), hn]
  omega

theorem writeAll_eq (os : List PageObject) (offset : Nat) (page : PageImage size)
    (h : offset + objectsSize os ≤ page.data.length) :
    ∃ page', writeAll offset os page = .ok () page' ∧
      Wrote page offset (os.flatMap PageObject.bytes) 0 page' := by
  induction os generalizing offset page with
  | nil => exact ⟨page, rfl, .nil page offset⟩
  | cons o os ih =>
      rw [objectsSize_cons] at h
      obtain ⟨page₁, hfirst, hwrote⟩ := write_eq page offset o.bytes (by rw [o.length_bytes]; omega)
      obtain ⟨page₂, hrest, hwrote'⟩ := ih (offset + o.bytes.length) page₁
        (by rw [hwrote.length_data, o.length_bytes]; omega)
      refine ⟨page₂, ?_, ?_⟩
      · exact bind_eq_ok.2 ⟨(), page₁, hfirst, hrest⟩
      · exact hwrote.append (by omega) hwrote'

theorem deleteFrom_eq (key : Bytes) (tid : Nat) (os : List PageObject) (offset : Nat)
    (page : PageImage size) (didDelete : Bool)
    (h : offset + objectsSize os ≤ page.data.length) (hused : objectsSize os ≤ page.used.toNat) :
    ∃ page', deleteFrom key tid os offset didDelete page =
        .ok (didDelete || os.any fun o => o.key = key ∧ o.tid = tid) page' ∧
      Wrote page offset
        ((os.filter fun o => ¬(o.key = key ∧ o.tid = tid)).flatMap PageObject.bytes)
        (objectsSize (os.filter fun o => o.key = key ∧ o.tid = tid)) page' := by
  induction os generalizing offset page didDelete with
  | nil => exact ⟨page, by simp [deleteFrom], .nil page offset⟩
  | cons o os ih =>
      rw [objectsSize_cons] at h hused
      unfold deleteFrom
      by_cases hmatch : o.key = key ∧ o.tid = tid
      · have hsub := toNat_used_sub (by omega : o.length ≤ page.used.toNat)
        obtain ⟨page', hrest, hwrote⟩ := ih offset
          { page with used := page.used - UInt16.ofNat o.length } true
          (by simpa using (by omega : offset + objectsSize os ≤ page.data.length))
          (by dsimp only; omega)
        rw [if_pos hmatch]
        refine ⟨page', ?_, ?_⟩
        · apply bind_eq_ok.2
          exact ⟨(), _, rfl, by simpa [hmatch] using hrest⟩
        · have hused' := hwrote.used
          constructor
          · exact hwrote.kind
          · simpa [hmatch] using hwrote.data
          · dsimp only at hused'
            simp only [List.filter_cons, hmatch, and_self, decide_true, if_true, objectsSize_cons]
            omega
      · obtain ⟨page₁, hfirst, hwrote⟩ := write_eq page offset o.bytes
          (by rw [o.length_bytes]; omega)
        have hused₁ := hwrote.used
        obtain ⟨page₂, hrest, hwrote'⟩ := ih (offset + o.bytes.length) page₁
          didDelete (by rw [hwrote.length_data, o.length_bytes]; omega) (by omega)
        rw [if_neg hmatch, List.any_cons, decide_eq_false hmatch, Bool.false_or,
          List.filter_cons_of_pos (by simpa only [decide_eq_true_eq] using hmatch),
          List.filter_cons_of_neg (by simpa only [decide_eq_true_eq] using hmatch)]
        refine ⟨page₂, ?_, ?_⟩
        · apply bind_eq_ok.2
          exact ⟨(), page₁, hfirst, hrest⟩
        · have happend := hwrote.append (by omega) hwrote'
          rwa [Nat.zero_add] at happend

/-- Another transaction has expired the object. -/
def Expired (key : Bytes) (tid xid : Nat) (o : PageObject) : Prop :=
  o.key = key ∧ o.tid = tid ∧ xid ≠ 0 ∧ o.xid ≠ 0 ∧ o.xid ≠ xid

instance (key : Bytes) (tid xid : Nat) (o : PageObject) : Decidable (Expired key tid xid o) :=
  inferInstanceAs (Decidable (_ ∧ _))

theorem expireFrom_cons {key : Bytes} {tid xid : Nat} {o : PageObject}
    (h : ¬Expired key tid xid o) (os : List PageObject) (offset : Nat) (modified : Bool) :
    (expireFrom key tid xid (o :: os) offset modified : EStateM Failure (PageImage size) Bool) =
      (do
        write offset (Page.setXid key tid xid o).bytes
        expireFrom key tid xid os (offset + (Page.setXid key tid xid o).bytes.length)
          (modified || decide (o.key = key ∧ o.tid = tid))) := by
  rw [expireFrom, Page.setXid]
  by_cases hmatch : o.key = key ∧ o.tid = tid
  · have hfree : ¬(xid ≠ 0 ∧ o.xid ≠ 0 ∧ o.xid ≠ xid) := fun hother =>
      h ⟨hmatch.1, hmatch.2, hother⟩
    rw [if_pos hmatch, if_pos hmatch, if_neg hfree, decide_eq_true hmatch, Bool.or_true]
  · rw [if_neg hmatch, if_neg hmatch, decide_eq_false hmatch, Bool.or_false]

theorem expireFrom_eq (key : Bytes) (tid xid : Nat) (os : List PageObject) (offset : Nat)
    (page : PageImage size) (modified : Bool)
    (h : offset + objectsSize os ≤ page.data.length) :
    ∃ pre post page', os = pre ++ post ∧
      Wrote page offset ((pre.map (Page.setXid key tid xid)).flatMap PageObject.bytes) 0 page' ∧
      if os.any fun o => Expired key tid xid o then
        expireFrom key tid xid os offset modified page = .error Page.concurrentWrite page'
      else
        post = [] ∧ expireFrom key tid xid os offset modified page =
          .ok (modified || os.any fun o => o.key = key ∧ o.tid = tid) page' := by
  induction os generalizing offset page modified with
  | nil => exact ⟨[], [], page, rfl, .nil page offset, by simp [expireFrom]⟩
  | cons o os ih =>
      rw [objectsSize_cons] at h
      by_cases hexpired : Expired key tid xid o
      · have hmatch : o.key = key ∧ o.tid = tid := ⟨hexpired.1, hexpired.2.1⟩
        refine ⟨[], o :: os, page, rfl, .nil page offset, ?_⟩
        rw [if_pos (by simp [hexpired]), expireFrom, if_pos hmatch, if_pos hexpired.2.2]
        rfl
      · obtain ⟨page₁, hfirst, hwrote⟩ := write_eq page offset
          (Page.setXid key tid xid o).bytes
          (by rw [PageObject.length_bytes, Page.length_setXid]; omega)
        obtain ⟨pre, post, page₂, rfl, hwrote', hrest⟩ := ih
          (offset + (Page.setXid key tid xid o).bytes.length) page₁
          (modified || decide (o.key = key ∧ o.tid = tid))
          (by rw [hwrote.length_data, PageObject.length_bytes, Page.length_setXid]; omega)
        refine ⟨o :: pre, post, page₂, rfl, ?_, ?_⟩
        · have happend := hwrote.append (by omega) hwrote'
          rwa [Nat.zero_add] at happend
        · rw [expireFrom_cons hexpired, List.any_cons, decide_eq_false hexpired, Bool.false_or]
          split at hrest
          · next hany =>
              rw [if_pos hany]
              exact bind_eq_error.2 (.inr ⟨(), page₁, hfirst, hrest⟩)
          · next hany =>
              rw [if_neg hany, List.any_cons, ← Bool.or_assoc]
              exact ⟨hrest.1, bind_eq_ok.2 ⟨(), page₁, hfirst, hrest.2⟩⟩

/-! ## Every operation -/

variable {page page' : PageImage size} {kind : UInt8} {os : List PageObject}

theorem Holds.size_le (h : page.Holds kind os) : objectsSize os ≤ page.data.length := by
  rw [← length_flatMap_bytes]
  exact h.written.length_le

theorem Holds.read (h : page.Holds kind os) {α : Type}
    (f : PageImage size → List PageObject → EStateM Failure (PageImage size) α) :
    (do
      let page ← (get : EStateM Failure (PageImage size) (PageImage size))
      let objects ← ofExcept page.objects
      f page objects) page = f page os page := by
  change (ofExcept page.objects >>= f page) page = _
  rw [h.objects]
  rfl

theorem objectsSize_filter_add (p : PageObject → Prop) [DecidablePred p] (os : List PageObject) :
    objectsSize (os.filter fun o => ¬p o) + objectsSize (os.filter p) = objectsSize os := by
  induction os with
  | nil => rfl
  | cons o os ih =>
      by_cases hp : p o
      · rw [List.filter_cons_of_neg (by simpa using hp),
          List.filter_cons_of_pos (by simpa using hp), objectsSize_cons, objectsSize_cons]
        omega
      · rw [List.filter_cons_of_pos (by simpa using hp),
          List.filter_cons_of_neg (by simpa using hp), objectsSize_cons, objectsSize_cons]
        omega

theorem Holds.delete (h : page.Holds kind os) (key : Bytes) (tid : Nat) :
    ∃ page', PageImage.delete key tid page =
        .ok (os.any fun o => o.key = key ∧ o.tid = tid) page' ∧
      page'.Holds kind (os.filter fun o => ¬(o.key = key ∧ o.tid = tid)) := by
  have hused := h.used
  have hsize := h.size_le
  obtain ⟨page', hdelete, hwrote⟩ := deleteFrom_eq key tid os 0 page false (by omega) (by omega)
  refine ⟨page', ?_, ?_⟩
  · unfold PageImage.delete
    rw [h.read fun _ objects => deleteFrom key tid objects 0 false]
    exact hdelete
  · have hsplit := objectsSize_filter_add (fun o => o.key = key ∧ o.tid = tid) os
    have hused' := hwrote.used
    constructor
    · rw [hwrote.kind, h.kind]
    · omega
    · rw [hwrote.data]
      exact ⟨_, rfl⟩
    · intro o ho
      exact h.encodable o (List.mem_of_mem_filter ho)
    · exact h.sorted.filter _

theorem encodable_setXid {key : Bytes} {tid xid : Nat} (hxid : xid < 2 ^ 64) {o : PageObject}
    (h : o.Encodable) : (Page.setXid key tid xid o).Encodable := by
  unfold Page.setXid
  split
  · exact ⟨h.key, h.tid, hxid⟩
  · exact h

@[simp] theorem key_setXid (key : Bytes) (tid xid : Nat) (o : PageObject) :
    (Page.setXid key tid xid o).key = o.key := by
  unfold Page.setXid
  split <;> rfl

/-- The objects before the place where `expire` stops have their new `xid`. -/
theorem Holds.expired {pre post : List PageObject} (h : page.Holds kind (pre ++ post)) {key : Bytes}
    {tid xid : Nat} (hxid : xid < 2 ^ 64)
    (hwrote : Wrote page 0 ((pre.map (Page.setXid key tid xid)).flatMap PageObject.bytes) 0 page') :
    page'.Holds kind (pre.map (Page.setXid key tid xid) ++ post) := by
  have hused := h.used
  have hused' := hwrote.used
  have hsize : objectsSize (pre.map (Page.setXid key tid xid)) = objectsSize pre :=
    objectsSize_map (Page.length_setXid key tid xid) pre
  constructor
  · rw [hwrote.kind, h.kind]
  · rw [objectsSize_append] at hused ⊢
    omega
  · obtain ⟨rest, hrest⟩ := h.written
    have hlength : ((pre.map (Page.setXid key tid xid)).flatMap PageObject.bytes).length =
        (pre.flatMap PageObject.bytes).length := by
      rw [length_flatMap_bytes, length_flatMap_bytes, hsize]
    rw [hwrote.data, hlength, ← hrest, List.flatMap_append, List.flatMap_append, List.take_zero,
      List.nil_append, Nat.zero_add, List.append_assoc, List.drop_left, ← List.append_assoc]
    exact List.prefix_append _ _
  · intro o ho
    rcases List.mem_append.1 ho with ho | ho
    · obtain ⟨o, hmem, rfl⟩ := List.mem_map.1 ho
      exact encodable_setXid hxid (h.encodable o (List.mem_append_left _ hmem))
    · exact h.encodable o (List.mem_append_right _ ho)
  · have hsorted := h.sorted
    simp only [List.pairwise_append, List.pairwise_map, List.mem_map, key_setXid,
      forall_exists_index, and_imp, forall_apply_eq_imp_iff₂] at hsorted ⊢
    exact hsorted

theorem Holds.expire (h : page.Holds kind os) {key : Bytes} {tid xid : Nat} (hxid : xid < 2 ^ 64)
    (hfree : ¬os.any fun o => Expired key tid xid o) :
    ∃ page', PageImage.expire key tid xid page =
        .ok (os.any fun o => o.key = key ∧ o.tid = tid) page' ∧
      page'.Holds kind (os.map (Page.setXid key tid xid)) := by
  have hsize := h.size_le
  obtain ⟨pre, post, page', rfl, hwrote, hrun⟩ := expireFrom_eq key tid xid os 0 page false
    (by omega)
  rw [if_neg hfree] at hrun
  obtain ⟨rfl, hrun⟩ := hrun
  have hholds := h.expired hxid hwrote
  rw [List.append_nil] at hrun hholds ⊢
  refine ⟨page', ?_, hholds⟩
  unfold PageImage.expire
  rw [h.read fun _ objects => expireFrom key tid xid objects 0 false, List.append_nil]
  exact hrun

theorem Holds.expire_error (h : page.Holds kind os) {key : Bytes} {tid xid : Nat}
    (hxid : xid < 2 ^ 64) (hexpired : os.any fun o => Expired key tid xid o) :
    ∃ page' os', PageImage.expire key tid xid page = .error Page.concurrentWrite page' ∧
      page'.Holds kind os' := by
  have hsize := h.size_le
  obtain ⟨pre, post, page', rfl, hwrote, hrun⟩ := expireFrom_eq key tid xid os 0 page false
    (by omega)
  rw [if_pos hexpired] at hrun
  refine ⟨page', _, ?_, h.expired hxid hwrote⟩
  unfold PageImage.expire
  rw [h.read fun _ objects => expireFrom key tid xid objects 0 false]
  exact hrun

theorem add_of_full (sort : KeySort) {obj : PageObject}
    (h : page.used.toNat + obj.length > size) :
    PageImage.add sort obj page =
      .error (.panic (s!"page cannot fit object of {obj.length} b in page " ++
        s!"using {page.used.toNat} b")) page := by
  change (if page.used.toNat + obj.length > size then _ else _ : EStateM _ _ _) page = _
  rw [if_pos h]
  rfl

theorem Holds.add_of_versions (h : page.Holds kind os) (sort : KeySort) {obj : PageObject}
    (hfits : page.used.toNat + obj.length ≤ size)
    (hversions : 2 ≤ (versions obj.key os).length) :
    PageImage.add sort obj page = .error Page.concurrentWrite page := by
  change (if page.used.toNat + obj.length > size then _ else _ : EStateM _ _ _) page = _
  rw [if_neg (by omega), h.objects]
  change (if (versions obj.key os).length ≥ 2 then _ else _ : EStateM _ _ _) page = _
  rw [if_pos hversions]
  rfl

theorem Holds.add_written (h : page.Holds kind os) (sort : KeySort) {obj : PageObject}
    (hfits : page.used.toNat + obj.length ≤ size)
    (hversions : (versions obj.key os).length < 2) :
    ∃ page', PageImage.add sort obj page = .ok () page' ∧ page'.kind = kind ∧
      page'.used.toNat = page.used.toNat + obj.length ∧
      (sort.sort (os ++ [obj])).flatMap PageObject.bytes <+: page'.data := by
  have hused := h.used
  have hheader := size.property
  have hlength := page.length_data
  have hsize : objectsSize (sort.sort (os ++ [obj])) = objectsSize os + obj.length := by
    rw [objectsSize_perm (sort.perm (os ++ [obj])), objectsSize_append, objectsSize_cons,
      objectsSize_nil, Nat.add_zero]
  obtain ⟨page₁, hwrite, hwrote⟩ := writeAll_eq (sort.sort (os ++ [obj])) 0 page (by omega)
  have hused₁ := hwrote.used
  refine ⟨{ page₁ with used := page₁.used + UInt16.ofNat obj.length }, ?_, ?_, ?_, ?_⟩
  · change (if page.used.toNat + obj.length > size then _ else _ : EStateM _ _ _) page = _
    rw [if_neg (by omega), h.objects]
    change (if (versions obj.key os).length ≥ 2 then _ else _ : EStateM _ _ _) page = _
    rw [if_neg (by omega)]
    exact bind_eq_ok.2 ⟨(), page₁, hwrite, rfl⟩
  · exact hwrote.kind.trans h.kind
  · simp only [UInt16.toNat_add, UInt16.toNat_ofNat', maxPageSize] at hheader ⊢
    omega
  · rw [hwrote.data]
    exact ⟨_, rfl⟩

theorem Holds.add (h : page.Holds kind os) (sort : KeySort) {obj : PageObject}
    (hobj : obj.Encodable) (hfits : page.used.toNat + obj.length ≤ size)
    (hversions : (versions obj.key os).length < 2) :
    ∃ page', PageImage.add sort obj page = .ok () page' ∧
      page'.Holds kind (sort.sort (os ++ [obj])) := by
  obtain ⟨page', hrun, hkind, hused', hwritten⟩ := h.add_written sort hfits hversions
  have hused := h.used
  have hperm := sort.perm (os ++ [obj])
  refine ⟨page', hrun, hkind, ?_, hwritten, ?_, sort.sorted _⟩
  · rw [objectsSize_perm hperm, objectsSize_append, objectsSize_cons, objectsSize_nil]
    omega
  · intro o ho
    rcases List.mem_append.1 (hperm.mem_iff.1 ho) with ho | ho
    · exact h.encodable o ho
    · rwa [List.mem_singleton.1 ho]

theorem Holds.final_delete (h : page.Holds kind os) (key : Bytes) (tid : Nat) :
    ∃ os', (final (PageImage.delete key tid page)).Holds kind os' := by
  obtain ⟨page', hrun, hholds⟩ := h.delete key tid
  rw [hrun]
  exact ⟨_, hholds⟩

theorem Holds.final_expire (h : page.Holds kind os) (key : Bytes) (tid : Nat) {xid : Nat}
    (hxid : xid < 2 ^ 64) : ∃ os', (final (PageImage.expire key tid xid page)).Holds kind os' := by
  by_cases hexpired : os.any fun o => Expired key tid xid o
  · obtain ⟨page', os', hrun, hholds⟩ := h.expire_error hxid hexpired
    rw [hrun]
    exact ⟨os', hholds⟩
  · obtain ⟨page', hrun, hholds⟩ := h.expire hxid hexpired
    rw [hrun]
    exact ⟨_, hholds⟩

theorem Holds.final_add (h : page.Holds kind os) (sort : KeySort) {obj : PageObject}
    (hobj : obj.Encodable) : ∃ os', (final (PageImage.add sort obj page)).Holds kind os' := by
  by_cases hfits : page.used.toNat + obj.length ≤ size
  · by_cases hversions : (PageImage.versions obj.key os).length < 2
    · obtain ⟨page', hrun, hholds⟩ := h.add sort hobj hfits hversions
      rw [hrun]
      exact ⟨_, hholds⟩
    · rw [h.add_of_versions sort hfits (by omega)]
      exact ⟨os, h⟩
  · rw [add_of_full sort (by omega)]
    exact ⟨os, h⟩

theorem Holds.update_eq (h : page.Holds kind os) (old : PageObject) (tid : Nat) :
    PageImage.update old tid page =
      (match PageImage.versions old.key os with
      | [version] =>
          if version = tid then do
            let _ ← PageImage.delete old.key tid
          else do
            let _ ← PageImage.expire old.key version tid
      | [_, _] => do
          let _ ← PageImage.delete old.key tid
      | _ => pure ()) page :=
  h.read fun _ _ => _

theorem Holds.final_update (h : page.Holds kind os) (old : PageObject) {tid : Nat}
    (htid : tid < 2 ^ 64) : ∃ os', (final (PageImage.update old tid page)).Holds kind os' := by
  rw [h.update_eq]
  rcases PageImage.versions old.key os with _ | ⟨version, _ | ⟨second, _ | _⟩⟩
  · exact ⟨os, h⟩
  · dsimp only
    split
    · rw [final_discard]
      exact h.final_delete old.key tid
    · rw [final_discard]
      exact h.final_expire old.key version htid
  · dsimp only
    rw [final_discard]
    exact h.final_delete old.key tid
  · exact ⟨os, h⟩

/-! ## Runs -/

inductive PageOp where
  | add (obj : PageObject)
  | delete (key : Bytes) (tid : Nat)
  | expire (key : Bytes) (tid xid : Nat)
  | update (old : PageObject) (tid : Nat)

/-- The ids of transactions are `u64`s. -/
def PageOp.HasIds : PageOp → Prop
  | .add obj => obj.tid < 2 ^ 64 ∧ obj.xid < 2 ^ 64
  | .delete _ tid => tid < 2 ^ 64
  | .expire _ tid xid => tid < 2 ^ 64 ∧ xid < 2 ^ 64
  | .update _ tid => tid < 2 ^ 64

/-- The length of a key is written as an `i16`. -/
def PageOp.HasKeyLength : PageOp → Prop
  | .add obj => obj.key.length < 2 ^ 15
  | _ => True

def PageOp.run (sort : KeySort) : PageOp → EStateM Failure (PageImage size) Unit
  | .add obj => PageImage.add sort obj
  | .delete key tid => do
      let _ ← PageImage.delete key tid
  | .expire key tid xid => do
      let _ ← PageImage.expire key tid xid
  | .update old tid => PageImage.update old tid

/-- The page after the operation, also when it fails. -/
def Steps (sort : KeySort) (page : PageImage size) (op : PageOp) (page' : PageImage size) : Prop :=
  final (op.run sort page) = page'

theorem Holds.step (h : page.Holds kind os) {sort : KeySort} {op : PageOp} (hids : op.HasIds)
    (hkey : op.HasKeyLength) (hstep : Steps sort page op page') :
    ∃ os', page'.Holds kind os' := by
  subst hstep
  cases op with
  | add obj => exact h.final_add sort ⟨hkey, hids.1, hids.2⟩
  | delete key tid =>
      rw [PageOp.run, final_discard]
      exact h.final_delete key tid
  | expire key tid xid =>
      rw [PageOp.run, final_discard]
      exact h.final_expire key tid hids.2
  | update old tid => exact h.final_update old hids

theorem holds_of_reaches {sort : KeySort}
    (h : Reaches (Steps sort) (fun _ op => op.HasIds ∧ op.HasKeyLength) (new kind) page) :
    ∃ os, page.Holds kind os := by
  have hstep : ∀ (s : PageImage size) op t, (∃ os, s.Holds kind os) →
      op.HasIds ∧ op.HasKeyLength → Steps sort s op t → ∃ os, t.Holds kind os := by
    rintro s op t ⟨os, hholds⟩ ⟨hids, hkey⟩ hs
    exact hholds.step hids hkey hs
  exact Reaches.invariant hstep h ⟨[], holds_new kind⟩

/-- Whichever way the page is read, and after it was written to the file, it has the objects. -/
structure Sound (page : PageImage size) (os : List PageObject) : Prop where
  objects : page.objects = .ok os
  objectsInPlace : page.objectsInPlace = .ok os
  used : page.used.toNat = pageHeaderSize + objectsSize os
  sorted : os.Pairwise fun a b => a.key ≤ b.key
  parsed : ∀ o ∈ os, parsePageObject.run o.bytes = .ok ((o.length, o), [])
  decoded : ofBytes page.bytes = page

theorem Holds.sound (h : page.Holds kind os) : page.Sound os where
  objects := h.objects
  objectsInPlace := h.objectsInPlace
  used := h.used
  sorted := h.sorted
  parsed o ho := (reads_parsePageObject (h.encodable o ho) (h.length_lt ho)).run
  decoded := ofBytes_bytes page

theorem sound_of_reaches {sort : KeySort}
    (h : Reaches (Steps sort) (fun _ op => op.HasIds ∧ op.HasKeyLength) (new kind) page) :
    ∃ os, page.Sound os := by
  obtain ⟨os, hholds⟩ := holds_of_reaches h
  exact ⟨os, hholds.sound⟩

theorem reaches_foldl {ops : List PageOp} (sort : KeySort)
    (hops : ∀ op ∈ ops, op.HasIds ∧ op.HasKeyLength) :
    Reaches (Steps sort) (fun _ op => op.HasIds ∧ op.HasKeyLength) page
      (ops.foldl (fun page op => final (op.run sort page)) page) := by
  apply Reaches.foldl
  intro pre op hpre
  exact hops op (hpre.subset (by simp))

/-- Objects of different lengths, of which one is deleted, one is expired and one is replaced. -/
def smallRun : List PageOp :=
  [.add (.new [0x52, 2] 3 0 [7, 8, 9]), .add (.new [0x52, 1] 3 0 [7]), .add (.new [0x54] 4 0 []),
    .delete [0x52, 2] 3, .expire [0x54] 4 5, .update (.new [0x52, 1] 3 0 [7]) 6,
    .add (.new [0x52, 1] 6 0 [1, 2])]

theorem sound_of_reaches_smallRun :
    ∃ os, (smallRun.foldl (fun page op => final (op.run .stable page))
      (new 0 : PageImage ⟨200, by decide⟩)).Sound os :=
  sound_of_reaches (reaches_foldl .stable
    (by simp [smallRun, PageOp.HasIds, PageOp.HasKeyLength, PageObject.new]))

example : (smallRun.foldl (fun page op => final (op.run .stable page))
    (new 0 : PageImage ⟨200, by decide⟩)).objects =
      .ok [.new [0x52, 1] 3 6 [7], .new [0x52, 1] 6 0 [1, 2], .new [0x54] 4 5 []] := by
  decide +kernel

/-! ## The pages of the B-tree -/

/-- The page as a list of objects, which is all that the B-tree needs of it. -/
def Represents (page : PageImage size) (p : Page size) : Prop :=
  page.Holds p.kind.byte p.objects

theorem Represents.used {p : Page size} (h : page.Represents p) : page.used.toNat = p.used :=
  Holds.used h

theorem Represents.add {p : Page size} (h : page.Represents p) {obj : PageObject}
    (hobj : obj.Encodable) :
    match p.add obj with
    | .ok p' => ∃ page', PageImage.add .stable obj page = .ok () page' ∧ page'.Represents p'
    | .error e => PageImage.add .stable obj page = .error e page := by
  have hused := h.used
  unfold Page.add
  split
  · next p' hadd =>
      split at hadd
      · next hfits =>
          split at hadd
          · cases hadd
          · next hversions =>
              cases hadd
              exact Holds.add h .stable hobj (by omega) (Nat.lt_of_not_le hversions)
      · cases hadd
  · next e hadd =>
      split at hadd
      · next hfits =>
          split at hadd
          · next hversions =>
              cases hadd
              exact Holds.add_of_versions h .stable (by omega) hversions
          · cases hadd
      · next hfits =>
          cases hadd
          rw [add_of_full .stable (by omega), hused]

theorem Represents.delete {p : Page size} (h : page.Represents p) (key : Bytes) (tid : Nat) :
    ∃ page', PageImage.delete key tid page = .ok (p.delete key tid).2 page' ∧
      page'.Represents (p.delete key tid).1 :=
  Holds.delete h key tid

theorem Represents.expire {p : Page size} (h : page.Represents p) (key : Bytes) (tid : Nat)
    {xid : Nat} (hxid : xid < 2 ^ 64) :
    match p.expire key tid xid with
    | .ok (p', modified) =>
        ∃ page', PageImage.expire key tid xid page = .ok modified page' ∧ page'.Represents p'
    | .error e => ∃ page', PageImage.expire key tid xid page = .error e page' := by
  by_cases hexpired : p.objects.any fun o => Expired key tid xid o
  · obtain ⟨page', -, hrun, -⟩ := Holds.expire_error h hxid hexpired
    rw [show p.expire key tid xid = .error _ from if_pos hexpired]
    exact ⟨page', hrun⟩
  · rw [show p.expire key tid xid = .ok _ from if_neg hexpired]
    exact Holds.expire h hxid hexpired

theorem Represents.update {p : Page size} (h : page.Represents p) (old : PageObject) {tid : Nat}
    (htid : tid < 2 ^ 64) :
    match p.update old tid with
    | .ok p' => ∃ page', PageImage.update old tid page = .ok () page' ∧ page'.Represents p'
    | .error e => ∃ page', PageImage.update old tid page = .error e page' := by
  have hversions : p.versions old.key = PageImage.versions old.key p.objects := rfl
  have hdelete : ∃ page', (do let _ ← PageImage.delete old.key tid) page = .ok () page' ∧
      page'.Represents (p.delete old.key tid).1 := by
    obtain ⟨page', hrun, hrepresents⟩ := h.delete old.key tid
    exact ⟨page', bind_eq_ok.2 ⟨_, page', hrun, rfl⟩, hrepresents⟩
  rw [Holds.update_eq h, Page.update, hversions]
  rcases PageImage.versions old.key p.objects with _ | ⟨version, _ | ⟨second, _ | _⟩⟩
  · exact ⟨page, rfl, h⟩
  · dsimp only
    split_ifs
    · exact hdelete
    · have hexpire := h.expire old.key version htid
      cases hresult : p.expire old.key version tid with
      | ok result =>
          rw [hresult] at hexpire
          obtain ⟨page', hrun, hrepresents⟩ := hexpire
          exact ⟨page', bind_eq_ok.2 ⟨_, page', hrun, rfl⟩, hrepresents⟩
      | error e =>
          rw [hresult] at hexpire
          obtain ⟨page', hrun⟩ := hexpire
          exact ⟨page', bind_eq_error.2 (.inl hrun)⟩
  · exact hdelete
  · exact ⟨page, rfl, h⟩

/-- The operation on the page of the B-tree. -/
def PageOp.apply (p : Page size) : PageOp → Except Failure (Page size)
  | .add obj => p.add obj
  | .delete key tid => .ok (p.delete key tid).1
  | .expire key tid xid => (p.expire key tid xid).map Prod.fst
  | .update old tid => p.update old tid

theorem represents_new (kind : PageKind) :
    (new kind.byte : PageImage size).Represents (Page.new kind) :=
  holds_new kind.byte

theorem Represents.step {p : Page size} (h : page.Represents p) {op : PageOp} (hids : op.HasIds)
    (hkey : op.HasKeyLength) :
    match op.apply p with
    | .ok p' => ∃ page', op.run .stable page = .ok () page' ∧ page'.Represents p'
    | .error e => ∃ page', op.run .stable page = .error e page' := by
  cases op with
  | add obj =>
      have hadd := h.add ⟨hkey, hids.1, hids.2⟩
      rw [PageOp.apply, PageOp.run]
      cases hresult : p.add obj with
      | ok p' =>
          rw [hresult] at hadd
          exact hadd
      | error e =>
          rw [hresult] at hadd
          exact ⟨page, hadd⟩
  | delete key tid =>
      obtain ⟨page', hrun, hrepresents⟩ := h.delete key tid
      exact ⟨page', bind_eq_ok.2 ⟨_, page', hrun, rfl⟩, hrepresents⟩
  | expire key tid xid =>
      have hexpire := h.expire key tid hids.2
      rw [PageOp.apply, PageOp.run]
      cases hresult : p.expire key tid xid with
      | ok result =>
          rw [hresult] at hexpire
          obtain ⟨page', hrun, hrepresents⟩ := hexpire
          exact ⟨page', bind_eq_ok.2 ⟨_, page', hrun, rfl⟩, hrepresents⟩
      | error e =>
          rw [hresult] at hexpire
          obtain ⟨page', hrun⟩ := hexpire
          exact ⟨page', bind_eq_error.2 (.inl hrun)⟩
  | update old tid => exact h.update old hids

/-- What the B-tree does to its pages is done to their bytes. -/
theorem represented_of_reaches {kind : PageKind} {p : Page size}
    (h : Reaches (fun p op p' => PageOp.apply p op = .ok p')
      (fun _ op => op.HasIds ∧ op.HasKeyLength) (Page.new kind) p) :
    ∃ page : PageImage size, Reaches (Steps .stable)
      (fun _ op => op.HasIds ∧ op.HasKeyLength) (new kind.byte) page ∧
        page.Represents p ∧ page.Sound p.objects := by
  suffices hrun : ∃ page : PageImage size, Reaches (Steps .stable)
      (fun _ op => op.HasIds ∧ op.HasKeyLength) (new kind.byte) page ∧ page.Represents p by
    obtain ⟨page, hreaches, hrepresents⟩ := hrun
    exact ⟨page, hreaches, hrepresents, Holds.sound hrepresents⟩
  induction h with
  | refl => exact ⟨new kind.byte, .refl _, represents_new kind⟩
  | next first meets last ih =>
      obtain ⟨page, hreaches, hrepresents⟩ := ih
      have hstep := hrepresents.step meets.1 meets.2
      rw [last] at hstep
      obtain ⟨page', hrun, hrepresents'⟩ := hstep
      exact ⟨page', .next hreaches meets (congrArg final hrun), hrepresents'⟩

/-! ### A key that is too long -/

def PageSize.largest : PageSize := ⟨maxPageSize, by decide⟩

def longKeyObject : PageObject := .new (List.replicate (2 ^ 15) 0) 3 0 []

theorem objects_of_long_key {o : PageObject} (hkey : 2 ^ 15 ≤ o.key.length)
    (hlow : o.key.length < 2 ^ 16) (htid : o.tid < 2 ^ 64) (hxid : o.xid < 2 ^ 64)
    (hlength : o.length < 2 ^ 31) (hused : pageHeaderSize < page.used.toNat)
    (hdata : o.bytes <+: page.data) : page.objects = .error pastEnd := by
  obtain ⟨rest, hrest⟩ := hdata
  have hparse := parsePageObject_of_long_key hkey hlow htid hxid hlength rest
  rw [PageImage.objects, objectsFrom, if_pos (by omega), ← hrest, if_neg (by simp), List.drop_zero]
  change (parsePageObject (o.bytes ++ rest) >>= fun _ => _) = _
  rw [hparse]
  rfl

theorem not_sound_longKey :
    ¬∀ (sort : KeySort) (kind : UInt8) (page : PageImage PageSize.largest),
      Reaches (Steps sort) (fun _ op => op.HasIds) (new kind) page → ∃ os, page.Sound os := by
  intro hsound
  have hkey : longKeyObject.key.length = 2 ^ 15 := List.length_replicate
  have hlength : longKeyObject.length = 32791 := by
    rw [PageObject.length, hkey]
    rfl
  have hnew : (new 0 : PageImage PageSize.largest).Holds 0 [] := holds_new 0
  have hfits : (new 0 : PageImage PageSize.largest).used.toNat + longKeyObject.length ≤
      maxPageSize := by
    rw [hnew.used, hlength]
    decide
  obtain ⟨page, hrun, -, hused, hwritten⟩ := hnew.add_written .stable hfits (by decide)
  obtain ⟨os, hos⟩ := hsound .stable 0 page
    (.next (.refl _) (e := .add longKeyObject) ⟨by decide, by decide⟩ (congrArg final hrun))
  have hread : page.objects = .error pastEnd := by
    apply objects_of_long_key (o := longKeyObject)
    · omega
    · omega
    · decide
    · decide
    · omega
    · rw [hused, hnew.used]
      omega
    · simpa [KeySort.stable, sortObjects] using hwritten
  rw [hos.objects] at hread
  cases hread

end PageImage
end Vsql
