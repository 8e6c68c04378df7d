import Vsql.Transactions.Acting

/-!
# Implicit transactions

Outside of an explicit transaction every outermost isolation block is a
transaction of its own: it gets a new id, and when it ends nothing is left that
it expired.
-/

namespace Vsql

open Foundation StateError

variable {size : PageSize} {Def : Type}

theorem Btree.holdsAt_congr {Q : PageObject → Prop} {t t' : Btree size}
    (h : t'.pages = t.pages) {n : Nat} : HoldsAt Q t' n ↔ HoldsAt Q t n := by
  simp [HoldsAt, leafAt, h]

/-- No object has a property of its transactions. -/
def Btree.Lacks (R : Nat → Nat → Prop) (t : Btree size) : Prop :=
  ∀ n, ¬ HoldsAt (fun o => R o.tid o.xid) t n

theorem Btree.Lacks.congr {R : Nat → Nat → Prop} {t t' : Btree size} (h : t.Lacks R)
    (hpages : t'.pages = t.pages) : t'.Lacks R :=
  fun n hn => h n ((holdsAt_congr hpages).mp hn)

theorem Btree.Lacks.shrinks {R : Nat → Nat → Prop} {t t' : Btree size} (h : t.Lacks R)
    (hzero : ∀ tid xid, R tid 0 → R tid xid) (hshrinks : t.Shrinks t') : t'.Lacks R :=
  fun n hn => h n (hshrinks.confines hzero n hn)

/-- One of the ids is later than a given one. -/
def Later (last tid xid : Nat) : Prop := last < tid ∨ last < xid

namespace Storage

/-- The state of a connection that writes, between implicit transactions. -/
structure Ready (s : Storage size Def) : Prop where
  state : s.transactionState = .notActive
  depth : s.isolationDepth = 0
  pages : s.transactionPages = []
  write : s.readOnly = false
  distinct : s.header.activeTransactionIds.Distinct
  bound : ∀ T ∈ s.header.activeTransactionIds.tids, T ≤ s.header.transactionId
  issued : s.btree.Lacks (Later s.header.transactionId)

/-- What implicit transactions do, one after the other. -/
structure Steps (others : Nat → Prop) (s t : Storage size Def) : Prop where
  medium : t.medium = s.medium
  committed : t.committed = s.committed
  snapshot : t.snapshot = s.snapshot
  error : t.isolationError = s.isolationError
  lastId : s.header.transactionId ≤ t.header.transactionId
  ids : ∀ T, T ≠ 0 → (T ∈ t.header.activeTransactionIds.tids ↔
    T ∈ s.header.activeTransactionIds.tids)
  absent : ∀ R : Nat → Nat → Prop, (∀ tid xid, R tid 0 → R tid xid) →
    (∀ U, s.header.transactionId < U → U ≤ t.header.transactionId →
      ¬ R U 0 ∧ ∀ tid xid, R tid U → R tid xid) →
    s.btree.Lacks R → t.btree.Lacks R
  others : ∀ T, others T → ∀ n, t.btree.OwnedAt T n → s.btree.OwnedAt T n
  ended : ∀ U, s.header.transactionId < U → U ≤ t.header.transactionId →
    t.btree.Lacks fun _ xid => xid = U

namespace Steps

variable {others : Nat → Prop}

theorem refl (s : Storage size Def) : Steps others s s where
  medium := rfl
  committed := rfl
  snapshot := rfl
  error := rfl
  lastId := le_refl _
  ids _ _ := .rfl
  absent _ _ _ h := h
  others _ _ _ h := h
  ended U h h' := absurd h' (by omega)

theorem trans {s t u : Storage size Def} (first : Steps others s t)
    (second : Steps others t u) : Steps others s u where
  medium := second.medium.trans first.medium
  committed := second.committed.trans first.committed
  snapshot := second.snapshot.trans first.snapshot
  error := second.error.trans first.error
  lastId := first.lastId.trans second.lastId
  ids T hT := (second.ids T hT).trans (first.ids T hT)
  absent R hzero hR h := second.absent R hzero
    (fun U hlow hhigh => hR U (first.lastId.trans_lt hlow) hhigh)
    (first.absent R hzero (fun U hlow hhigh => hR U hlow (hhigh.trans second.lastId)) h)
  others T hT n h := first.others T hT n (second.others T hT n h)
  ended U hlow hhigh := by
    rcases Nat.lt_or_ge t.header.transactionId U with hlt | hle
    · exact second.ended U hlt hhigh
    · refine second.absent _ (fun tid xid heq => by omega) (fun V hV _ => ?_)
        (first.ended U hlow hle)
      exact ⟨by omega, fun tid xid heq => by omega⟩

/-- Only the header and the tree matter. -/
theorem congr {s t t' : Storage size Def} (h : Steps others s t)
    (hstays : t.Stays t') (hpages : t'.btree.pages = t.btree.pages) :
    Steps others s t' where
  medium := hstays.medium.trans h.medium
  committed := hstays.committed.trans h.committed
  snapshot := hstays.snapshot.trans h.snapshot
  error := hstays.error.trans h.error
  lastId := by rw [hstays.lastId]; exact h.lastId
  ids := by rw [hstays.ids]; exact h.ids
  absent R hzero hR hs := by
    rw [hstays.lastId] at hR
    exact (h.absent R hzero hR hs).congr hpages
  others T hT n hn := h.others T hT n ((Btree.holdsAt_congr hpages).mp hn)
  ended U hlow hhigh := (h.ended U hlow (by rwa [← hstays.lastId])).congr hpages

end Steps

theorem isolated_outside {others : Nat → Prop} {fault : Option Failure}
    {body : StorageM size Def Unit} {s t : Storage size Def} (hs : s.Ready)
    (h : isolated fault body s = .ok () t) (ht : t.isolationError = none)
    (hothers : ∀ T, others T → T ≠ 0 ∧ T ≤ s.header.transactionId)
    (hbody : ∀ u v, isolationStart s = .ok () u → u.InTransaction →
      u.transactionId = s.header.transactionId + 1 → body u = .ok () v →
      v.isolationError = none → u.Stays v ∧ Changes u.transactionId others u v) :
    Steps others s t ∧ t.Ready := by
  obtain ⟨hstate, hdepth, hpages, hwrite, hdistinct, hbound, hissued⟩ := hs
  obtain ⟨u, v, hstart, hrun, hend⟩ := isolated_eq_ok h ht
  have hv : v.isolationError = none := (isolationEnd_error hend).symm.trans ht
  have hout : ¬ s.InTransaction := by simp [InTransaction, hstate, hdepth]
  obtain ⟨ids, hadd, hu⟩ := isolationStart_outside hstart hout hwrite
  have hin : u.InTransaction := by
    rw [← hu]
    exact .inr (show (0 : Int) < 1 by decide)
  have huid : u.transactionId = s.header.transactionId + 1 := by rw [← hu]
  obtain ⟨hstays, hchanges⟩ := hbody u v hstart hin huid hrun hv
  have hunot : u.transactionState = .notActive := by rw [← hu]; exact hstate
  have hvnot : v.transactionState = .notActive := hstays.state.trans hunot
  have hvdepth : v.isolationDepth = 1 := by rw [hstays.depth, ← hu]
  have hvwrite : v.readOnly = false := by rw [hstays.readOnly, ← hu]; exact hwrite
  have hleft : v.leftIsolation = keepWrittenPages { v with isolationDepth := 0 } := by
    simp [leftIsolation, leaveIsolation, hvnot, hvdepth]
  have hends : ¬ v.leftIsolation.Continues := by
    rw [hleft]
    simp [Continues, keepWrittenPages, hvnot, hvwrite]
  obtain ⟨hcontinues, -⟩ | ⟨-, b, hremove, rfl⟩ := isolationEnd_eq_ok hend
  · exact absurd hcontinues hends
  rw [hleft] at hremove ⊢
  have hU : v.transactionId ≠ 0 := by rw [hstays.id, huid]; omega
  have hshrinks : v.btree.Shrinks b := by
    obtain ⟨hlength, hroot, hpage⟩ := removeExpiredObjects_shrinks hremove
    exact ⟨hlength, hroot, hpage⟩
  have hids : v.header.activeTransactionIds = ids := by rw [hstays.ids, ← hu]
  have hnew : s.header.transactionId + 1 ∉ s.header.activeTransactionIds.tids :=
    fun hmem => absurd (hbound _ hmem) (by omega)
  have hremoved : ∀ T, T ≠ 0 → (T ∈ (ids.remove v.transactionId).tids ↔
      T ∈ s.header.activeTransactionIds.tids) := by
    intro T hT
    rw [hstays.id, huid]
    exact TransactionIds.mem_remove_add hadd hdistinct hnew hT
  have hubtree : u.btree = s.btree := by rw [← hu]
  have hlast : v.header.transactionId = s.header.transactionId + 1 := by
    rw [hstays.lastId, ← hu]
  have habsent : ∀ R : Nat → Nat → Prop, (∀ tid xid, R tid 0 → R tid xid) →
      (∀ U, s.header.transactionId < U → U ≤ v.header.transactionId →
        ¬ R U 0 ∧ ∀ tid xid, R tid U → R tid xid) →
      s.btree.Lacks R → b.Lacks R := by
    intro R hzero hR hlacks
    obtain ⟨hR0, hRU⟩ := hR u.transactionId (by omega) (by omega)
    exact Btree.Lacks.shrinks
      (hchanges.absent R hR0 hRU (by rwa [hubtree])) hzero hshrinks
  have hsteps : Steps others s (endTransactionId
      { keepWrittenPages { v with isolationDepth := 0 } with btree := b }) := by
    constructor
    · exact hstays.medium.trans (by rw [← hu])
    · exact hstays.committed.trans (by rw [← hu])
    · exact hstays.snapshot.trans (by rw [← hu])
    · exact hstays.error.trans (by rw [← hu])
    · exact (Nat.le_succ _).trans_eq hlast.symm
    · intro T hT
      rw [← hremoved T hT, ← hids]
      rfl
    · exact habsent
    · intro T hT n hn
      have hv := hchanges.others T hT n (hshrinks.ownedAt (hothers T hT).1 hn)
      rwa [hubtree] at hv
    · intro U hlow hhigh n hn
      have hUv : U = v.transactionId := by
        have hhigh : U ≤ v.header.transactionId := hhigh
        rw [hstays.id, huid]
        omega
      subst hUv
      by_cases htouched : v.Touched n
      · exact removeExpiredObjects_expiredAt hU hremove
          (List.mem_union_iff.mpr htouched) hn
      · obtain ⟨contents, hleaf, o, ho, hxid⟩ := hshrinks.expiredAt hU hn
        refine hissued n ⟨contents, ?_, o, ho, .inr ?_⟩
        · rw [← hleaf, ← hubtree]
          unfold Btree.leafAt
          rw [hchanges.kept n htouched]
        · rw [hxid]
          exact hlow
  refine ⟨hsteps, hvnot, rfl, rfl, hvwrite, ?_, ?_, ?_⟩
  · show (v.header.activeTransactionIds.remove v.transactionId).Distinct
    rw [hids]
    exact TransactionIds.distinct_remove
      (TransactionIds.distinct_add hadd hdistinct hnew) _
  · intro T hT
    by_cases hzero : T = 0
    · omega
    · exact (hbound T ((hsteps.ids T hzero).mp hT)).trans hsteps.lastId
  · show b.Lacks (Later v.header.transactionId)
    rw [hlast]
    refine Btree.Lacks.shrinks (hchanges.absent (Later (s.header.transactionId + 1))
      ?_ (fun tid xid h => ?_) fun n hn => ?_) (fun tid xid h => ?_) hshrinks
    · rw [huid]
      simp [Later]
    · rw [huid] at h
      exact .inl (by simpa [Later] using h)
    · rw [hubtree] at hn
      obtain ⟨contents, hleaf, o, ho, hlater⟩ := hn
      refine hissued n ⟨contents, hleaf, o, ho, ?_⟩
      unfold Later at hlater ⊢
      omega
    · simp only [Later, Nat.not_lt_zero, or_false] at h
      exact .inl h

end Storage

/-! ## The work of a statement -/

theorem Work.run_error {w : Work Def} {s t : Storage size Def}
    (h : w.run s = .ok () t) (ht : t.isolationError = none) :
    s.isolationError = none := by
  induction w generalizing s with
  | done =>
      obtain ⟨-, rfl⟩ := pure_eq_ok.mp h
      exact ht
  | fail e => cases h
  | deferCheck key table next ih =>
      obtain ⟨_, u, hdefer, hnext⟩ := bind_eq_ok.mp h
      obtain rfl := modify_eq_ok.mp hdefer
      have hkept := ih hnext
      exact hkept
  | isolation fault body next ih =>
      obtain ⟨_, u, hisolated, hnext⟩ := bind_eq_ok.mp h
      obtain ⟨v, w, hstart, hbody, hend⟩ := Storage.isolated_eq_ok hisolated (ih hnext)
      have hw := (Storage.isolationEnd_error hend).symm.trans (ih hnext)
      exact (Storage.isolationStart_error hstart).symm.trans
        (Actions.run_error hbody hw)

theorem Work.run_idle {w : Work Def} {others : Nat → Prop} {s t : Storage size Def}
    (h : w.run s = .ok () t) (ht : t.isolationError = none) (hs : s.Ready)
    (hothers : ∀ T, others T → T ≠ 0 ∧ T ≤ s.header.transactionId)
    (hsafe : w.Safe others s) : Storage.Steps others s t ∧ t.Ready := by
  induction w generalizing s with
  | done =>
      obtain ⟨-, rfl⟩ := pure_eq_ok.mp h
      exact ⟨.refl s, hs⟩
  | fail e => cases h
  | deferCheck key table next ih =>
      obtain ⟨_, u, hdefer, hnext⟩ := bind_eq_ok.mp h
      obtain rfl := modify_eq_ok.mp hdefer
      obtain ⟨hsteps, hready⟩ := ih hnext
        ⟨hs.state, hs.depth, hs.pages, hs.write, hs.distinct, hs.bound, hs.issued⟩
        hothers hsafe
      refine ⟨.trans ?_ hsteps, hready⟩
      exact (Storage.Steps.refl s).congr (by constructor <;> rfl) rfl
  | isolation fault body next ih =>
      obtain ⟨_, u, hisolated, hnext⟩ := bind_eq_ok.mp h
      obtain ⟨hsteps, hready⟩ := Storage.isolated_outside hs hisolated
        (Work.run_error hnext ht) hothers fun v w hstart hin hid hbody hw => by
          refine Actions.run_changes hbody hw hin rfl (fun T hT => ?_) (hsafe.1 v hstart)
          obtain ⟨hzero, hle⟩ := hothers T hT
          exact ⟨by omega, hzero⟩
      obtain ⟨hsteps', hready'⟩ := ih hnext hready
        (fun T hT => ⟨(hothers T hT).1, (hothers T hT).2.trans hsteps.lastId⟩)
        (hsafe.2 u hisolated)
      exact ⟨hsteps.trans hsteps', hready'⟩

namespace Storage

/-- A block leaves no written pages that are not remembered. -/
theorem isolated_writtenPages {fault : Option Failure} {body : StorageM size Def Unit}
    {s t : Storage size Def} (h : isolated fault body s = .ok () t)
    (ht : t.isolationError = none) (hactive : t.transactionState = .active) :
    t.btree.writtenPages = [] := by
  obtain ⟨u, v, -, -, hend⟩ := isolated_eq_ok h ht
  obtain ⟨-, rfl⟩ | ⟨hends, b, -, rfl⟩ := isolationEnd_eq_ok hend
  · rfl
  · exact absurd (.inl hactive) hends

end Storage

theorem Work.run_active {w : Work Def} {others : Nat → Prop} {s t : Storage size Def}
    (h : w.run s = .ok () t) (ht : t.isolationError = none)
    (hs : s.transactionState = .active) (hwritten : s.btree.writtenPages = [])
    (hothers : ∀ T, others T → T ≠ s.transactionId ∧ T ≠ 0)
    (hsafe : w.Safe others s) :
    s.Stays t ∧ Changes s.transactionId others s t ∧ t.btree.writtenPages = [] := by
  induction w generalizing s with
  | done =>
      obtain ⟨-, rfl⟩ := pure_eq_ok.mp h
      exact ⟨.refl s, .refl s, hwritten⟩
  | fail e => cases h
  | deferCheck key table next ih =>
      obtain ⟨_, u, hdefer, hnext⟩ := bind_eq_ok.mp h
      obtain rfl := modify_eq_ok.mp hdefer
      obtain ⟨hstays, hchanges, hlast⟩ := ih hnext hs hwritten hothers hsafe
      refine ⟨.trans (by constructor <;> rfl) hstays, .trans ?_ hchanges, hlast⟩
      exact (Changes.refl s).congr rfl rfl
  | isolation fault body next ih =>
      obtain ⟨_, u, hisolated, hnext⟩ := bind_eq_ok.mp h
      have hu := Work.run_error hnext ht
      obtain ⟨hstays, hchanges⟩ := Storage.isolated_inside s.transactionId others
        hisolated hu (.inl hs) fun v w hstart hin hid hbody hw =>
          Actions.run_changes hbody hw hin hid hothers (hsafe.1 v hstart)
      have hactive : u.transactionState = .active := hstays.state.trans hs
      obtain ⟨hstays', hchanges', hlast⟩ := ih hnext hactive
        (Storage.isolated_writtenPages hisolated hu hactive)
        (by rwa [hstays.id]) (hsafe.2 u hisolated)
      rw [hstays.id] at hchanges'
      exact ⟨hstays.trans hstays', hchanges.trans hchanges', hlast⟩

end Vsql
