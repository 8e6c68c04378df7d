import Vsql.Transactions.Opening

/-!
# A database that has been opened

When a statement that writes begins, the tree is the one in the file, less what
recovery has removed from it, and the header has the ids of the transactions
that are still active.
-/

namespace Vsql

open Foundation StateError

variable {size : PageSize} {Def : Type}

/-- The tree in a database file. -/
def CommittedState.tree (file : CommittedState size) : Btree size :=
  ⟨file.pages, file.header.rootPage, []⟩

/-- No active id has two slots or is later than the last one. -/
structure Header.Sound (h : Header) : Prop where
  distinct : h.activeTransactionIds.Distinct
  bound : ∀ T ∈ h.activeTransactionIds.tids, T ≤ h.transactionId

theorem TransactionIds.mem_foldl_remove {t : TransactionIds} (ht : t.Distinct)
    {gone : List Nat} (hgone : ∀ T ∈ gone, T ≠ 0) {T : Nat} (hT : T ≠ 0) :
    T ∈ (gone.foldl remove t).tids ↔ T ∈ t.tids ∧ T ∉ gone := by
  induction gone generalizing t with
  | nil => simp
  | cons U gone ih =>
      have hU := hgone U List.mem_cons_self
      rw [List.foldl_cons, ih (distinct_remove ht U)
        fun V hV => hgone V (List.mem_cons_of_mem _ hV)]
      by_cases heq : T = U
      · subst heq
        simp [not_mem_remove ht hT]
      · simp [mem_remove_of_ne heq hT, heq]

theorem TransactionIds.distinct_foldl_remove {t : TransactionIds} (ht : t.Distinct)
    (gone : List Nat) : (gone.foldl remove t).Distinct := by
  induction gone generalizing t with
  | nil => exact ht
  | cons U gone ih => exact ih (distinct_remove ht U)

theorem Header.Sound.of_subset {h h' : Header} (hs : h.Sound)
    (hdistinct : h'.activeTransactionIds.Distinct)
    (hlast : h.transactionId ≤ h'.transactionId)
    (hids : ∀ T, T ≠ 0 → T ∈ h'.activeTransactionIds.tids →
      T ∈ h.activeTransactionIds.tids) : h'.Sound := by
  refine ⟨hdistinct, fun T hT => ?_⟩
  by_cases hzero : T = 0
  · omega
  · exact (hs.bound T (hids T hzero hT)).trans hlast

namespace Storage

/-! ## The schema -/

/-- What loading the schema leaves as it is.  It uses up an id. -/
structure Reloads (s t : Storage size Def) : Prop where
  snapshot : t.snapshot = s.snapshot
  readOnly : t.readOnly = s.readOnly
  error : t.isolationError = s.isolationError
  tree : t.btree.pages = s.btree.pages
  root : t.btree.rootPage = s.btree.rootPage
  lastId : s.header.transactionId ≤ t.header.transactionId
  ids : s.header.Sound → ∀ T, T ≠ 0 → (T ∈ t.header.activeTransactionIds.tids ↔
    T ∈ s.header.activeTransactionIds.tids)
  sound : s.header.Sound → t.header.Sound

theorem Reloads.refl (s : Storage size Def) : s.Reloads s :=
  ⟨rfl, rfl, rfl, rfl, rfl, le_refl _, fun _ _ _ => .rfl, fun h => h⟩

theorem loadSchema_reloads {parser : SchemaParser Def} {fault : OpenFault}
    {s t : Storage size Def} (h : loadSchema parser fault s = .ok () t) (hs : s.Quiet)
    (hwrite : s.readOnly = false)
    (hdepth : s.transactionState = .notActive → s.isolationDepth = 0) :
    s.Reloads t := by
  obtain ⟨u, v, hstart, hbody, rfl⟩ := isolated_parts h
  obtain ⟨tables, schemas, indexes, hv⟩ :=
    (loadDefinitions_loads parser fault).moves u () v hbody
  cases hstate : s.transactionState with
  | active =>
      obtain ⟨-, rfl⟩ | ⟨hnot, -⟩ := isolationStart_inside hstart (.inl hstate)
      · have hvstate : v.transactionState = .active := by rw [← hv]; exact hstate
        have hend : endIsolation none v = keepWrittenPages v := by
          simp [endIsolation, isolationEnd_none, leftIsolation, leaveIsolation, hvstate,
            keepWrittenPages, pure, EStateM.pure]
        rw [hend, ← hv]
        exact ⟨rfl, rfl, rfl, rfl, rfl, le_refl _, fun _ _ _ => .rfl, fun h => h⟩
      · rw [hstate] at hnot
        cases hnot
  | notActive =>
      have hout : ¬ s.InTransaction := by simp [InTransaction, hstate, hdepth hstate]
      obtain ⟨ids, hadd, hu⟩ := isolationStart_outside hstart hout hwrite
      rw [← hu] at hv
      have hend : endIsolation none v = endTransactionId
          (keepWrittenPages { v with isolationDepth := 0 }) := by
        have hleft : v.leftIsolation = keepWrittenPages { v with isolationDepth := 0 } := by
          rw [← hv]
          simp [leftIsolation, leaveIsolation, hstate]
        have hends : ¬ (v.leftIsolation.transactionState = .active ∨
            v.leftIsolation.isolationDepth > 0 ∨ v.leftIsolation.readOnly) := by
          rw [hleft, ← hv]
          simp [keepWrittenPages, hstate, hwrite]
        have hpages : v.leftIsolation.transactionPages = [] := by
          rw [hleft, ← hv]
          show s.transactionPages ∪ s.btree.writtenPages = []
          rw [hs.pages hstate, hs.written]
          rfl
        rw [endIsolation, isolationEnd_none, if_neg hends, hpages, hleft]
        rfl
      have hnew : s.header.Sound →
          s.header.transactionId + 1 ∉ s.header.activeTransactionIds.tids :=
        fun hsound hmem => absurd (hsound.bound _ hmem) (by omega)
      have hids : s.header.Sound → ∀ T, T ≠ 0 →
          (T ∈ (ids.remove (s.header.transactionId + 1)).tids ↔
            T ∈ s.header.activeTransactionIds.tids) := by
        intro hsound T hT
        exact TransactionIds.mem_remove_add hadd hsound.distinct (hnew hsound) hT
      rw [hend, ← hv]
      refine ⟨rfl, rfl, rfl, rfl, rfl, Nat.le_succ _, hids, fun hsound => ?_⟩
      exact hsound.of_subset (TransactionIds.distinct_remove
        (TransactionIds.distinct_add hadd hsound.distinct (hnew hsound)) _) (Nat.le_succ _)
          fun T hT hmem => (hids hsound T hT).mp hmem

/-! ## Recovery -/

/-- The transactions that a statement recovers from. -/
def deadIds (alone : Bool) (s : Storage size Def) (header : Header) : List Nat :=
  if alone then s.otherTransactionIds header else []

theorem mem_deadIds {alone : Bool} {s : Storage size Def} {header : Header} {T : Nat} :
    T ∈ s.deadIds alone header ↔ alone ∧ T ∈ header.activeTransactionIds.tids ∧ T ≠ 0 ∧
      (s.transactionState = .notActive ∨ T ≠ s.transactionId) := by
  cases alone <;> simp [deadIds, otherTransactionIds]

theorem recoverDead_ok {alone : Bool} {fault : OpenFault} {header header' : Header}
    {s t : Storage size Def}
    (h : recoverDead true alone fault header s = .ok header' t) :
    ∃ b, { s with btree := b } = t ∧ s.btree.Shrinks b ∧
      (∀ T ∈ s.deadIds alone header, b.Lacks (Owns T)) ∧
      header'.transactionId = header.transactionId ∧
      header'.activeTransactionIds =
        (s.deadIds alone header).foldl .remove header.activeTransactionIds := by
  obtain ⟨u, v, hget, hnext⟩ := bind_eq_ok.mp h
  obtain ⟨rfl, rfl⟩ := get_eq_ok.mp hget
  have hkept : s.deadIds alone header = [] →
      (pure header : StorageM size Def Header) s = .ok header' t →
      ∃ b, { s with btree := b } = t ∧ s.btree.Shrinks b ∧
        (∀ T ∈ s.deadIds alone header, b.Lacks (Owns T)) ∧
        header'.transactionId = header.transactionId ∧
        header'.activeTransactionIds =
          (s.deadIds alone header).foldl .remove header.activeTransactionIds := by
    intro hnil hpure
    obtain ⟨rfl, rfl⟩ := pure_eq_ok.mp hpure
    rw [hnil]
    exact ⟨s.btree, rfl, .refl _, by simp, rfl, rfl⟩
  split at hnext
  next hothers =>
    obtain ⟨_, u, hfail, hnext⟩ := bind_eq_ok.mp hnext
    obtain ⟨-, rfl⟩ := failWith_eq_ok.mp hfail
    cases alone with
    | false => exact hkept rfl hnext
    | true =>
        obtain ⟨header'', u, hrecover, hnext⟩ := bind_eq_ok.mp hnext
        obtain ⟨_, v, hshared, hlast⟩ := bind_eq_ok.mp hnext
        obtain ⟨-, rfl⟩ := failWith_eq_ok.mp hshared
        obtain ⟨rfl, rfl⟩ := pure_eq_ok.mp hlast
        obtain ⟨w, x, hget, hrecover⟩ := bind_eq_ok.mp hrecover
        obtain ⟨rfl, rfl⟩ := get_eq_ok.mp hget
        obtain ⟨_, w, hfail, hrecover⟩ := bind_eq_ok.mp hrecover
        obtain ⟨-, rfl⟩ := failWith_eq_ok.mp hfail
        obtain ⟨_, w, hpages, hlast⟩ := bind_eq_ok.mp hrecover
        obtain ⟨b, hb, rfl⟩ := onBtree_eq_ok.mp hpages
        obtain ⟨rfl, rfl⟩ := pure_eq_ok.mp hlast
        refine ⟨b, rfl, recoverPages_shrinks hb, fun T hT n hn => ?_, rfl, rfl⟩
        have hzero : T ≠ 0 := (mem_deadIds.mp hT).2.2.1
        refine recoverPages_ownedAt hb ?_ hzero hT hn
        obtain ⟨contents, hleaf, -⟩ := (recoverPages_shrinks hb).ownedAt hzero hn
        obtain ⟨page, hpage, -⟩ := Btree.leafAt_eq_some.mp hleaf
        exact List.mem_range.mpr (List.getElem?_eq_some_iff.mp hpage).1
  next hnone =>
    refine hkept ?_ hnext
    unfold deadIds
    split
    · simpa using hnone
    · rfl

/-! ## Opening -/

/-- The state in which a statement that writes begins. -/
structure Opened (alone : Bool) (s t : Storage size Def) : Prop where
  quiet : t.Quiet
  write : t.readOnly = false
  error : t.isolationError = s.isolationError
  shrinks : s.committed.tree.Shrinks t.btree
  recovered : ∀ T ∈ s.deadIds alone s.committed.header, t.btree.Lacks (Owns T)
  lastId : s.committed.header.transactionId ≤ t.header.transactionId
  ids : ∀ T, T ≠ 0 → (T ∈ t.header.activeTransactionIds.tids ↔
    T ∈ s.committed.header.activeTransactionIds.tids ∧
      T ∉ s.deadIds alone s.committed.header)
  sound : t.header.Sound

theorem openStorage_opened {parser : SchemaParser Def} {alone : Bool} {fault : OpenFault}
    {s t : Storage size Def} (h : openStorage parser true alone fault s = .ok () t)
    (hs : s.Parked) (hdepth : s.transactionState = .notActive → s.isolationDepth = 0)
    (hsound : s.committed.header.Sound) : Opened alone s t := by
  obtain ⟨_, u, hfail, hopen⟩ := bind_eq_ok.mp h
  obtain ⟨-, rfl⟩ := failWith_eq_ok.mp hfail
  obtain ⟨_, u, huse, hopen⟩ := bind_eq_ok.mp hopen
  obtain rfl := modify_eq_ok.mp huse
  have hquiet : (s.usePager true).Quiet := ⟨rfl, hs.depth, hs.pages⟩
  have hfinal := openFile_undisturbed parser true alone fault (s.usePager true)
  rw [hopen] at hfinal
  obtain ⟨htquiet, -⟩ := hfinal.quiet hquiet
  obtain ⟨_, u, hfail, hopen⟩ := bind_eq_ok.mp hopen
  obtain ⟨-, rfl⟩ := failWith_eq_ok.mp hfail
  obtain ⟨u, v, hget, hopen⟩ := bind_eq_ok.mp hopen
  obtain ⟨rfl, rfl⟩ := get_eq_ok.mp hget
  obtain ⟨header, u, hrecover, hopen⟩ := bind_eq_ok.mp hopen
  have hrquiet := recoverDead_undisturbed true alone fault s.committed.header
    (s.usePager true)
  rw [show recoverDead true alone fault s.committed.header (s.usePager true) =
    .ok header u from hrecover] at hrquiet
  obtain ⟨huquiet, hudepth, -⟩ := hrquiet.quiet hquiet
  obtain ⟨b, rfl, hshrinks, hlacks, hlast, hids⟩ := recoverDead_ok hrecover
  obtain ⟨_, v, hset, hopen⟩ := bind_eq_ok.mp hopen
  obtain rfl := modify_eq_ok.mp hset
  have hnonzero : ∀ T ∈ s.deadIds alone s.committed.header, T ≠ 0 :=
    fun T hT => (mem_deadIds.mp hT).2.2.1
  have hmem : ∀ T, T ≠ 0 → (T ∈ header.activeTransactionIds.tids ↔
      T ∈ s.committed.header.activeTransactionIds.tids ∧
        T ∉ s.deadIds alone s.committed.header) := by
    intro T hT
    rw [hids]
    exact TransactionIds.mem_foldl_remove hsound.distinct hnonzero hT
  have hheader : header.Sound := by
    refine hsound.of_subset ?_ hlast.ge fun T hT h => ((hmem T hT).mp h).1
    rw [hids]
    exact TransactionIds.distinct_foldl_remove hsound.distinct _
  have hreloads : Reloads { s.usePager true with btree := b, header := header } t := by
    split at hopen
    · obtain ⟨-, rfl⟩ := pure_eq_ok.mp hopen
      exact .refl _
    · exact loadSchema_reloads hopen ⟨huquiet.written, hs.depth, hs.pages⟩ rfl hdepth
  refine ⟨htquiet, hreloads.readOnly, hreloads.error, ?_, fun T hT => ?_, ?_,
    fun T hT => (hreloads.ids hheader T hT).trans (hmem T hT), hreloads.sound hheader⟩
  · refine ⟨?_, hreloads.root.trans hshrinks.root, fun n page hpage => ?_⟩
    · rw [hreloads.tree]
      exact hshrinks.length
    · rw [hreloads.tree] at hpage
      exact hshrinks.page n page hpage
  · exact (hlacks T hT).congr hreloads.tree
  · exact hlast.ge.trans hreloads.lastId

end Storage
end Vsql
