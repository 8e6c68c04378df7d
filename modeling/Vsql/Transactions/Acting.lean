import Vsql.Transactions.Undo

/-!
# What a transaction does

In a transaction, an object that appears was created by it, an object that
changes was expired by it, and every page that it changes is remembered.  The
objects of another transaction stay on their pages, unless a split moves one of
them.
-/

namespace Vsql

open Foundation StateError

variable {size : PageSize} {Def : Type}

namespace Storage

theorem onBtree_eq_ok {α : Type} {x : BtreeM size α} {s t : Storage size Def} {a : α} :
    onBtree x s = .ok a t ↔ ∃ b, x s.btree = .ok a b ∧ { s with btree := b } = t := by
  unfold onBtree
  cases x s.btree <;> simp

@[simp] theorem failWith_eq_ok {e : Option Failure} {s t : Storage size Def} {u : Unit} :
    failWith e s = .ok u t ↔ e = none ∧ s = t := by
  cases e <;> simp [failWith]

/-! ## Isolation blocks -/

def InTransaction (s : Storage size Def) : Prop :=
  s.transactionState = .active ∨ 0 < s.isolationDepth

theorem isolationStart_inside {s t : Storage size Def}
    (h : isolationStart s = .ok () t) (hin : s.InTransaction) :
    s.transactionState = .active ∧ s = t ∨
      s.transactionState = .notActive ∧
        { s with isolationDepth := s.isolationDepth + 1 } = t := by
  obtain ⟨u, v, hget, hnext⟩ := bind_eq_ok.mp h
  obtain ⟨rfl, rfl⟩ := get_eq_ok.mp hget
  cases hstate : s.transactionState with
  | active =>
      simp only [hstate, pure_eq_ok] at hnext
      exact .inl ⟨rfl, hnext.2⟩
  | notActive =>
      have hdepth : 0 < s.isolationDepth := by simpa [InTransaction, hstate] using hin
      simp only [hstate, gt_iff_lt, hdepth, if_true, modify_eq_ok] at hnext
      exact .inr ⟨rfl, hnext⟩

/-- The state in which an isolation block has been left, but the transaction
has not ended. -/
def leftIsolation (s : Storage size Def) : Storage size Def :=
  keepWrittenPages (leaveIsolation s)

def Continues (s : Storage size Def) : Prop :=
  s.transactionState = .active ∨ s.isolationDepth > 0 ∨ s.readOnly

theorem isolationEnd_eq_ok {fault : Option Failure} {s t : Storage size Def}
    (h : isolationEnd fault s = .ok () t) :
    s.leftIsolation.Continues ∧ s.leftIsolation = t ∨
      ¬ s.leftIsolation.Continues ∧
        ∃ b, removeExpiredObjects s.leftIsolation.transactionId
            s.leftIsolation.transactionPages s.leftIsolation.btree = .ok () b ∧
          endTransactionId { s.leftIsolation with btree := b } = t := by
  obtain ⟨_, u, hleave, hnext⟩ := bind_eq_ok.mp h
  obtain rfl := modify_eq_ok.mp hleave
  obtain ⟨_, v, hfault, hnext⟩ := bind_eq_ok.mp hnext
  obtain ⟨-, rfl⟩ := failWith_eq_ok.mp hfault
  obtain ⟨_, w, hkeep, hnext⟩ := bind_eq_ok.mp hnext
  obtain rfl := modify_eq_ok.mp hkeep
  obtain ⟨x, y, hget, hnext⟩ := bind_eq_ok.mp hnext
  obtain ⟨rfl, rfl⟩ := get_eq_ok.mp hget
  split at hnext
  next hcontinues =>
      exact .inl ⟨hcontinues, (pure_eq_ok.mp hnext).2⟩
  next hends =>
      obtain ⟨_, z, hremove, hlast⟩ := bind_eq_ok.mp hnext
      obtain ⟨b, hb, rfl⟩ := onBtree_eq_ok.mp hremove
      exact .inr ⟨hends, b, hb, modify_eq_ok.mp hlast⟩

theorem isolationError_leftIsolation (s : Storage size Def) :
    s.leftIsolation.isolationError = s.isolationError := by
  unfold leftIsolation keepWrittenPages leaveIsolation
  split <;> rfl

theorem isolationEnd_error {fault : Option Failure} {s t : Storage size Def}
    (h : isolationEnd fault s = .ok () t) : t.isolationError = s.isolationError := by
  rw [← isolationError_leftIsolation s]
  obtain ⟨-, rfl⟩ | ⟨-, b, -, rfl⟩ := isolationEnd_eq_ok h <;> rfl

theorem isolated_parts {fault : Option Failure} {body : StorageM size Def Unit}
    {s t : Storage size Def} (h : isolated fault body s = .ok () t) :
    ∃ u v, isolationStart s = .ok () u ∧ body u = .ok () v ∧ endIsolation fault v = t := by
  obtain ⟨_, u, hstart, hbody⟩ := bind_eq_ok.mp h
  cases hrun : body u with
  | error e v =>
      simp only [hrun] at hbody
      cases hbody
  | ok a v =>
      simp only [hrun, EStateM.Result.ok.injEq, true_and] at hbody
      exact ⟨u, v, hstart, hrun, hbody⟩

/-- If no error was kept, every part of an isolation block succeeded. -/
theorem isolated_eq_ok {fault : Option Failure} {body : StorageM size Def Unit}
    {s t : Storage size Def} (h : isolated fault body s = .ok () t)
    (ht : t.isolationError = none) :
    ∃ u v, isolationStart s = .ok () u ∧ body u = .ok () v ∧
      isolationEnd fault v = .ok () t := by
  obtain ⟨u, v, hstart, hrun, rfl⟩ := isolated_parts h
  refine ⟨u, v, hstart, hrun, ?_⟩
  unfold endIsolation at ht ⊢
  cases hend : isolationEnd fault v with
  | ok a w => rfl
  | error e w =>
      simp only [hend] at ht
      cases herror : w.isolationError <;> simp [herror] at ht

end Storage

/-! ## Operations -/

/-- What a statement leaves as it is while it is in a transaction. -/
structure Storage.Stays (s t : Storage size Def) : Prop where
  medium : t.medium = s.medium
  committed : t.committed = s.committed
  snapshot : t.snapshot = s.snapshot
  readOnly : t.readOnly = s.readOnly
  state : t.transactionState = s.transactionState
  id : t.transactionId = s.transactionId
  depth : t.isolationDepth = s.isolationDepth
  error : t.isolationError = s.isolationError
  lastId : t.header.transactionId = s.header.transactionId
  ids : t.header.activeTransactionIds = s.header.activeTransactionIds

namespace Storage.Stays

theorem refl (s : Storage size Def) : s.Stays s := by
  constructor <;> rfl

theorem trans {s t u : Storage size Def} (first : s.Stays t) (second : t.Stays u) :
    s.Stays u where
  medium := second.medium.trans first.medium
  committed := second.committed.trans first.committed
  snapshot := second.snapshot.trans first.snapshot
  readOnly := second.readOnly.trans first.readOnly
  state := second.state.trans first.state
  id := second.id.trans first.id
  depth := second.depth.trans first.depth
  error := second.error.trans first.error
  lastId := second.lastId.trans first.lastId
  ids := second.ids.trans first.ids

theorem onBtree {α : Type} {x : BtreeM size α} {s t : Storage size Def} {a : α}
    (h : Storage.onBtree x s = .ok a t) : s.Stays t := by
  obtain ⟨b, -, rfl⟩ := onBtree_eq_ok.mp h
  constructor <;> rfl

end Storage.Stays

namespace Op

theorem run_onBtree {α : Type} {s t : Storage size Def}
    {x : Storage size Def → BtreeM size α}
    (h : (do let s ← get; discard (Storage.onBtree (x s) : StorageM size Def α)) s = .ok () t) :
    ∃ a b, x s s.btree = .ok a b ∧ { s with btree := b } = t := by
  obtain ⟨u, v, hget, hnext⟩ := bind_eq_ok.mp h
  obtain ⟨rfl, rfl⟩ := get_eq_ok.mp hget
  obtain ⟨a, w, hrun, hlast⟩ := bind_eq_ok.mp hnext
  obtain ⟨b, hb, rfl⟩ := Storage.onBtree_eq_ok.mp hrun
  exact ⟨a, b, hb, (pure_eq_ok.mp hlast).2⟩

theorem run_stays {o : Op Def} {s t : Storage size Def} (h : o.run s = .ok () t) :
    s.Stays t ∧ t.transactionPages = s.transactionPages := by
  cases o with
  | add key value =>
      obtain ⟨a, b, -, rfl⟩ := run_onBtree h
      exact ⟨by constructor <;> rfl, rfl⟩
  | update key value =>
      obtain ⟨a, b, -, rfl⟩ := run_onBtree h
      exact ⟨by constructor <;> rfl, rfl⟩
  | expire key tid =>
      obtain ⟨a, b, -, rfl⟩ := run_onBtree h
      exact ⟨by constructor <;> rfl, rfl⟩
  | nextValue obj value =>
      obtain ⟨_, u, hrun, hlast⟩ := bind_eq_ok.mp h
      obtain ⟨b, -, rfl⟩ := Storage.onBtree_eq_ok.mp hrun
      obtain rfl := modify_eq_ok.mp hlast
      exact ⟨by constructor <;> rfl, rfl⟩
  | count counter =>
      obtain rfl := modify_eq_ok.mp h
      cases counter <;> exact ⟨by constructor <;> rfl, rfl⟩
  | writeVersion version =>
      obtain rfl := modify_eq_ok.mp h
      exact ⟨by constructor <;> rfl, rfl⟩
  | schemaChanged =>
      obtain rfl := modify_eq_ok.mp h
      exact ⟨by constructor <;> rfl, rfl⟩
  | tables f =>
      obtain rfl := modify_eq_ok.mp h
      exact ⟨by constructor <;> rfl, rfl⟩
  | schemas f =>
      obtain rfl := modify_eq_ok.mp h
      exact ⟨by constructor <;> rfl, rfl⟩
  | indexes f =>
      obtain rfl := modify_eq_ok.mp h
      exact ⟨by constructor <;> rfl, rfl⟩

end Op

/-! ## Objects of other transactions -/

/-- The leaf that a key leads to has an object with this key, from the same
transactions. -/
def InPlace (obj : PageObject) (t : Btree size) : Prop :=
  ∃ path depthIterator n page, Btree.searchPage obj.key t = .ok (path, depthIterator) t ∧
    Btree.LeafPath t path n page ∧
    ∃ o ∈ page.objects, o.key = obj.key ∧ o.tid = obj.tid ∧ o.xid = obj.xid

/-- The operation does not move an object of another transaction to a new page,
and the value of a sequence belongs to an object that exists. -/
def Op.Safe (others : Nat → Prop) (s : Storage size Def) : Op Def → Prop
  | .add key value => ∀ T, others T →
      Btree.AddsSafely (fun o => Owns T o.tid o.xid)
        (.new key s.transactionId 0 value) s.btree
  | .update key value => ∀ T, others T → ∀ n t,
      Btree.replaceVersion (.new key s.transactionId 0 value) s.btree = .ok n t →
        Btree.AddsSafely (fun o => Owns T o.tid o.xid)
          (.new key s.transactionId 0 value) t
  | .nextValue obj _ => InPlace obj s.btree
  | _ => True

def Actions.Safe (others : Nat → Prop) : Actions (Op Def) → Storage size Def → Prop
  | .done, _ => True
  | .fail _, _ => True
  | .op o next, s => o.Safe others s ∧ ∀ t, o.run s = .ok () t → next.Safe others t
  | .isolation fault body next, s =>
      (∀ t, Storage.isolationStart s = .ok () t → body.Safe others t) ∧
        ∀ t, Storage.isolated fault (body.run Op.run) s = .ok () t → next.Safe others t

def Work.Safe (others : Nat → Prop) : Work Def → Storage size Def → Prop
  | .done, _ => True
  | .fail _, _ => True
  | .deferCheck key table next, s =>
      next.Safe others { s with deferredChecks := s.deferredChecks.set key table }
  | .isolation fault body next, s =>
      (∀ t, Storage.isolationStart s = .ok () t → body.Safe others t) ∧
        ∀ t, Storage.isolated fault (body.run Op.run) s = .ok () t → next.Safe others t

/-! ## Changes of the tree -/

def Storage.Touched (s : Storage size Def) (n : Nat) : Prop :=
  n ∈ s.transactionPages ∨ n ∈ s.btree.writtenPages

/-- What the transaction `U` does to the tree. -/
structure Changes (U : Nat) (others : Nat → Prop) (s t : Storage size Def) : Prop where
  touched : ∀ n, s.Touched n → t.Touched n
  kept : ∀ n, ¬ t.Touched n → t.btree.pages[n]? = s.btree.pages[n]?
  /-- A property that neither new nor expired objects have does not appear. -/
  absent : ∀ R : Nat → Nat → Prop, ¬ R U 0 → (∀ tid xid, R tid U → R tid xid) →
    (∀ n, ¬ Btree.HoldsAt (fun o => R o.tid o.xid) s.btree n) →
    ∀ n, ¬ Btree.HoldsAt (fun o => R o.tid o.xid) t.btree n
  others : ∀ T, others T → ∀ n, t.btree.OwnedAt T n → s.btree.OwnedAt T n

namespace Changes

variable {U : Nat} {others : Nat → Prop}

theorem refl (s : Storage size Def) : Changes U others s s :=
  ⟨fun _ h => h, fun _ _ => rfl, fun _ _ _ h => h, fun _ _ _ h => h⟩

theorem trans {s t u : Storage size Def} (first : Changes U others s t)
    (second : Changes U others t u) : Changes U others s u where
  touched n h := second.touched n (first.touched n h)
  kept n h := by
    rw [second.kept n h, first.kept n fun hn => h (second.touched n hn)]
  absent R hnew hxid h := second.absent R hnew hxid (first.absent R hnew hxid h)
  others T hT n h := first.others T hT n (second.others T hT n h)

/-- Only the tree and the pages that are remembered matter. -/
theorem congr {s t t' : Storage size Def} (h : Changes U others s t)
    (hbtree : t'.btree = t.btree) (hpages : t'.transactionPages = t.transactionPages) :
    Changes U others s t' := by
  obtain ⟨htouched, hkept, habsent, hothers⟩ := h
  constructor
  · simpa [Storage.Touched, hbtree, hpages] using htouched
  · simpa [Storage.Touched, hbtree, hpages] using hkept
  · simpa [hbtree] using habsent
  · simpa [hbtree] using hothers

theorem onBtree {s : Storage size Def} {b : Btree size}
    (htracks : Btree.Tracks s.btree b)
    (habsent : ∀ R : Nat → Nat → Prop, ¬ R U 0 → (∀ tid xid, R tid U → R tid xid) →
      ∀ m, Btree.HoldsAt (fun o => R o.tid o.xid) b m →
        ∃ n, Btree.HoldsAt (fun o => R o.tid o.xid) s.btree n)
    (hothers : ∀ T, others T → ∀ n, b.OwnedAt T n → s.btree.OwnedAt T n) :
    Changes U others s { s with btree := b } := by
  refine ⟨fun n hn => ?_, fun n hn => ?_, fun R hnew hxid hnone m hm => ?_, hothers⟩
  · rcases hn with hn | hn
    · exact .inl hn
    · exact .inr (htracks.written hn)
  · exact htracks.kept n fun hwritten => hn (.inr hwritten)
  · obtain ⟨n, hn⟩ := habsent R hnew hxid m hm
    exact hnone n hn

end Changes

theorem Owns.of_xid {T U : Nat} (hne : T ≠ U) {tid xid : Nat} (h : Owns T tid U) :
    Owns T tid xid := by
  rcases h with h | h
  · exact .inl h
  · exact absurd h.symm hne

theorem not_owns_new {T U : Nat} (hne : T ≠ U) (hT : T ≠ 0) : ¬ Owns T U 0 := by
  rintro (h | h)
  · exact hne h.symm
  · exact hT h.symm

theorem Op.run_changes {o : Op Def} {s t : Storage size Def} {U : Nat}
    {others : Nat → Prop} (h : o.run s = .ok () t) (hU : s.transactionId = U)
    (hothers : ∀ T, others T → T ≠ U ∧ T ≠ 0) (hsafe : o.Safe others s) :
    Changes U others s t := by
  subst hU
  cases o with
  | add key value =>
      obtain ⟨a, b, hadd, rfl⟩ := run_onBtree h
      refine .onBtree (Btree.Tracks.add _ _ _ _ hadd) (fun R hnew hxid m hm => ?_)
        fun T hT n hn => ?_
      · refine Btree.add_holds hadd (fun o htid hxid' hR => hnew ?_) hm
        simpa [htid, hxid', PageObject.new] using hR
      · obtain ⟨hne, hzero⟩ := hothers T hT
        refine Btree.add_confines hadd (fun o htid hxid howns => ?_) (hsafe T hT) n hn
        rw [htid, hxid] at howns
        exact not_owns_new hne hzero howns
  | update key value =>
      obtain ⟨a, b, hupdate, rfl⟩ := run_onBtree h
      refine .onBtree (Btree.Tracks.update _ _ _ _ hupdate) (fun R hnew hxid m hm => ?_)
        fun T hT n hn => ?_
      · refine Btree.update_holds hupdate (fun o hR => hxid _ _ hR)
          (fun o htid hxid' hR => hnew ?_) hm
        simpa [htid, hxid', PageObject.new] using hR
      · obtain ⟨hne, hzero⟩ := hothers T hT
        refine Btree.update_confines hupdate (fun o howns => howns.of_xid hne)
          (fun o htid hxid howns => ?_) (hsafe T hT) n hn
        rw [htid, hxid] at howns
        exact not_owns_new hne hzero howns
  | expire key tid =>
      obtain ⟨a, b, hexpire, rfl⟩ := run_onBtree h
      refine .onBtree (Btree.Tracks.expire _ _ _ _ _ _ hexpire)
        (fun R hnew hxid m hm => ⟨m, ?_⟩) fun T hT n hn => ?_
      · exact Btree.expire_confines hexpire (fun o hR => hxid o.tid o.xid hR) m hm
      · exact Btree.expire_confines hexpire
          (fun o howns => howns.of_xid (hothers T hT).1) n hn
  | nextValue obj value =>
      obtain ⟨_, u, hrun, hlast⟩ := bind_eq_ok.mp h
      obtain ⟨b, hb, rfl⟩ := Storage.onBtree_eq_ok.mp hrun
      obtain rfl := modify_eq_ok.mp hlast
      have hconfines : ∀ R : Nat → Nat → Prop,
          Btree.Confines (fun o => R o.tid o.xid) s.btree b := by
        refine fun R => Btree.replaceValue_confines hb fun hR => ?_
        obtain ⟨path, depthIterator, n, page, hsearch, hpath, o, ho, -, htid, hxid⟩ := hsafe
        exact ⟨path, depthIterator, n, page, hsearch, hpath, o, ho, by rw [htid, hxid]; exact hR⟩
      exact (Changes.onBtree (Btree.Tracks.replaceValue _ _ _ _ _ hb)
        (fun R _ _ m hm => ⟨m, hconfines R m hm⟩)
        fun T _ n hn => hconfines (Owns T) n hn).congr rfl rfl
  | count counter =>
      obtain rfl := modify_eq_ok.mp h
      exact (Changes.refl s).congr rfl rfl
  | writeVersion version =>
      obtain rfl := modify_eq_ok.mp h
      exact (Changes.refl s).congr rfl rfl
  | schemaChanged =>
      obtain rfl := modify_eq_ok.mp h
      exact (Changes.refl s).congr rfl rfl
  | tables f =>
      obtain rfl := modify_eq_ok.mp h
      exact (Changes.refl s).congr rfl rfl
  | schemas f =>
      obtain rfl := modify_eq_ok.mp h
      exact (Changes.refl s).congr rfl rfl
  | indexes f =>
      obtain rfl := modify_eq_ok.mp h
      exact (Changes.refl s).congr rfl rfl

/-! ## Runs -/

namespace Storage

/-- The outermost block of an implicit transaction, which gets a new id. -/
theorem isolationStart_outside {s t : Storage size Def}
    (h : isolationStart s = .ok () t) (hin : ¬ s.InTransaction)
    (hwrite : s.readOnly = false) :
    ∃ ids, s.header.activeTransactionIds.add (s.header.transactionId + 1) = .ok ids ∧
      { s with
        header := { s.header with
          transactionId := s.header.transactionId + 1, activeTransactionIds := ids }
        transactionId := s.header.transactionId + 1
        isolationDepth := 1 } = t := by
  simp only [InTransaction, not_or] at hin
  obtain ⟨hstate, hdepth⟩ := hin
  have hstate : s.transactionState = .notActive := by
    cases hs : s.transactionState with
    | active => exact absurd hs hstate
    | notActive => rfl
  obtain ⟨u, v, hget, hnext⟩ := bind_eq_ok.mp h
  obtain ⟨rfl, rfl⟩ := get_eq_ok.mp hget
  simp only [hstate, gt_iff_lt, hdepth, hwrite, if_false, Bool.false_eq_true] at hnext
  obtain ⟨_, u, hid, hnext⟩ := bind_eq_ok.mp hnext
  obtain rfl := modify_eq_ok.mp hid
  obtain ⟨ids, v, hrun, hlast⟩ := bind_eq_ok.mp hnext
  obtain ⟨hadd, rfl⟩ := ofExcept_eq_ok.mp hrun
  exact ⟨ids, hadd, modify_eq_ok.mp hlast⟩

theorem isolationStart_error {s t : Storage size Def}
    (h : isolationStart s = .ok () t) : t.isolationError = s.isolationError := by
  by_cases hin : s.InTransaction
  · obtain ⟨-, rfl⟩ | ⟨-, rfl⟩ := isolationStart_inside h hin <;> rfl
  · cases hread : s.readOnly with
    | false =>
        obtain ⟨ids, -, rfl⟩ := isolationStart_outside h hin hread
        rfl
    | true =>
        simp only [InTransaction, not_or] at hin
        obtain ⟨u, v, hget, hnext⟩ := bind_eq_ok.mp h
        obtain ⟨rfl, rfl⟩ := get_eq_ok.mp hget
        cases hstate : s.transactionState with
        | active => exact absurd hstate hin.1
        | notActive =>
            simp only [hstate, gt_iff_lt, hin.2, hread, if_false, if_true,
              modify_eq_ok] at hnext
            rw [← hnext]

theorem leftIsolation_changes {U : Nat} {others : Nat → Prop}
    (s : Storage size Def) : Changes U others s s.leftIsolation := by
  have hbtree : s.leftIsolation.btree = { s.btree with writtenPages := [] } := by
    unfold leftIsolation keepWrittenPages leaveIsolation
    split <;> rfl
  have hpages : s.leftIsolation.transactionPages =
      s.transactionPages ∪ s.btree.writtenPages := by
    unfold leftIsolation keepWrittenPages leaveIsolation
    split <;> rfl
  constructor
  · intro n hn
    exact .inl (by rw [hpages]; exact List.mem_union_iff.mpr hn)
  · intro n _
    rw [hbtree]
  · intro R _ _ hnone n hn
    rw [hbtree] at hn
    exact hnone n hn
  · intro T _ n hn
    rwa [hbtree] at hn

/-- A block inside of a transaction only does what its body does. -/
theorem isolated_inside (U : Nat) (others : Nat → Prop) {fault : Option Failure}
    {body : StorageM size Def Unit} {s t : Storage size Def}
    (h : isolated fault body s = .ok () t) (ht : t.isolationError = none)
    (hin : s.InTransaction)
    (hbody : ∀ u v, isolationStart s = .ok () u → u.InTransaction →
      u.transactionId = s.transactionId → body u = .ok () v →
      v.isolationError = none → u.Stays v ∧ Changes U others u v) :
    s.Stays t ∧ Changes U others s t := by
  obtain ⟨u, v, hstart, hrun, hend⟩ := isolated_eq_ok h ht
  have hv : v.isolationError = none := (isolationEnd_error hend).symm.trans ht
  obtain ⟨hstate, rfl⟩ | ⟨hstate, rfl⟩ := isolationStart_inside hstart hin
  · obtain ⟨hstays, hchanges⟩ := hbody s v hstart hin rfl hrun hv
    have hactive : v.transactionState = .active := hstays.state.trans hstate
    have hleft : v.leftIsolation = keepWrittenPages v := by
      simp [leftIsolation, leaveIsolation, hactive]
    obtain ⟨-, rfl⟩ | ⟨hends, -⟩ := isolationEnd_eq_ok hend
    · refine ⟨hstays.trans ?_, hchanges.trans v.leftIsolation_changes⟩
      rw [hleft]
      constructor <;> rfl
    · exact absurd (.inl (by rw [hleft]; exact hactive)) hends
  · have hdepth : 0 < s.isolationDepth := by simpa [InTransaction, hstate] using hin
    obtain ⟨hstays, hchanges⟩ := hbody _ v hstart
      (.inr (show 0 < s.isolationDepth + 1 by omega)) rfl hrun hv
    have hnot : v.transactionState = .notActive := hstays.state.trans hstate
    have hvdepth : v.isolationDepth = s.isolationDepth + 1 := hstays.depth
    have hleft : v.leftIsolation =
        keepWrittenPages { v with isolationDepth := s.isolationDepth } := by
      simp [leftIsolation, leaveIsolation, hnot, hvdepth]
    obtain ⟨-, rfl⟩ | ⟨hends, -⟩ := isolationEnd_eq_ok hend
    · have hdeeper : Changes U others s
          { s with isolationDepth := s.isolationDepth + 1 } :=
        (Changes.refl s).congr rfl rfl
      refine ⟨?_, (hdeeper.trans hchanges).trans v.leftIsolation_changes⟩
      rw [hleft]
      obtain ⟨hmedium, hcommitted, hsnapshot, hread, hs, hid, -, herror, hlast, hids⟩ :=
        hstays
      exact ⟨hmedium, hcommitted, hsnapshot, hread, hs, hid, rfl, herror, hlast, hids⟩
    · exact absurd (.inr (.inl (by rw [hleft]; exact hdepth))) hends

end Storage

theorem Actions.run_error {b : Actions (Op Def)} {s t : Storage size Def}
    (h : b.run Op.run s = .ok () t) (ht : t.isolationError = none) :
    s.isolationError = none := by
  induction b generalizing s t with
  | done =>
      obtain ⟨-, rfl⟩ := pure_eq_ok.mp h
      exact ht
  | fail e => cases h
  | op o next ih =>
      obtain ⟨_, u, hop, hnext⟩ := bind_eq_ok.mp h
      exact (Op.run_stays hop).1.error.symm.trans (ih hnext ht)
  | isolation fault body next ihBody ihNext =>
      obtain ⟨_, u, hisolated, hnext⟩ := bind_eq_ok.mp h
      obtain ⟨v, w, hstart, hbody, hend⟩ :=
        Storage.isolated_eq_ok hisolated (ihNext hnext ht)
      have hw := (Storage.isolationEnd_error hend).symm.trans (ihNext hnext ht)
      exact (Storage.isolationStart_error hstart).symm.trans (ihBody hbody hw)

theorem Actions.run_changes {b : Actions (Op Def)} {U : Nat} {others : Nat → Prop}
    {s t : Storage size Def} (h : b.run Op.run s = .ok () t)
    (ht : t.isolationError = none) (hin : s.InTransaction)
    (hU : s.transactionId = U) (hothers : ∀ T, others T → T ≠ U ∧ T ≠ 0)
    (hsafe : b.Safe others s) : s.Stays t ∧ Changes U others s t := by
  induction b generalizing s t with
  | done =>
      obtain ⟨-, rfl⟩ := pure_eq_ok.mp h
      exact ⟨.refl s, .refl s⟩
  | fail e => cases h
  | op o next ih =>
      obtain ⟨_, u, hop, hnext⟩ := bind_eq_ok.mp h
      obtain ⟨hstays, -⟩ := Op.run_stays hop
      have hchanges := Op.run_changes hop hU hothers hsafe.1
      have hinside : u.InTransaction := by
        simpa [Storage.InTransaction, hstays.state, hstays.depth] using hin
      obtain ⟨hstays', hchanges'⟩ :=
        ih hnext ht hinside (hstays.id.trans hU) (hsafe.2 u hop)
      exact ⟨hstays.trans hstays', hchanges.trans hchanges'⟩
  | isolation fault body next ihBody ihNext =>
      obtain ⟨_, u, hisolated, hnext⟩ := bind_eq_ok.mp h
      obtain ⟨hstays, hchanges⟩ := Storage.isolated_inside U others
        hisolated (Actions.run_error hnext ht) hin
        fun v w hstart hv hid hbody hw =>
          ihBody hbody hw hv (hid.trans hU) (hsafe.1 v hstart)
      have hinside : u.InTransaction := by
        simpa [Storage.InTransaction, hstays.state, hstays.depth] using hin
      obtain ⟨hstays', hchanges'⟩ :=
        ihNext hnext ht hinside (hstays.id.trans hU) (hsafe.2 u hisolated)
      exact ⟨hstays.trans hstays', hchanges.trans hchanges'⟩

end Vsql
