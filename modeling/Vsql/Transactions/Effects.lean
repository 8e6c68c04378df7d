import Vsql.Transactions.Failing

/-!
# The effect of a statement

The effect of a statement on the file is described without the statement: which
transactions it may have acted for, what it left of the others, and which
transactions have ended with it.
-/

namespace Vsql

open Foundation StateError

variable {size : PageSize} {Def : Type}

/-- No object was created or expired by a transaction that is yet to come. -/
structure CommittedState.Sound (file : CommittedState size) : Prop where
  header : file.header.Sound
  issued : file.tree.Lacks (Later file.header.transactionId)

/-- What a statement does, on behalf of the transactions `own` and of new ones. -/
structure Effect (others own : Nat → Prop) (f f' : CommittedState size) : Prop where
  lastId : f.header.transactionId ≤ f'.header.transactionId
  sound : f'.Sound
  ids : ∀ T, T ≠ 0 → T ∈ f'.header.activeTransactionIds.tids →
    T ∈ f.header.activeTransactionIds.tids ∨ f.header.transactionId < T
  kept : ∀ T, others T → T ∈ f.header.activeTransactionIds.tids →
    T ∈ f'.header.activeTransactionIds.tids
  absent : ∀ R : Nat → Nat → Prop, (∀ tid xid, R tid 0 → R tid xid) →
    (∀ U, own U ∨ f.header.transactionId < U ∧ U ≤ f'.header.transactionId →
      ¬ R U 0 ∧ ∀ tid xid, R tid U → R tid xid) →
    f.tree.Lacks R → f'.tree.Lacks R
  others : ∀ T, others T → ∀ n, f'.tree.OwnedAt T n → f.tree.OwnedAt T n
  ended : ∀ U, f.header.transactionId < U → U ≤ f'.header.transactionId →
    U ∉ f'.header.activeTransactionIds.tids → f'.tree.Lacks fun _ xid => xid = U

namespace Effect

variable {others own : Nat → Prop} {f g h : CommittedState size}

theorem mono {own' : Nat → Prop} (heffect : Effect others own f g)
    (hown : ∀ T, own T → own' T) : Effect others own' f g :=
  { heffect with
    absent := fun R hzero hR hlacks => heffect.absent R hzero
      (fun U hU => hR U (hU.imp_left (hown U))) hlacks }

theorem weaken {others' : Nat → Prop} (h : Effect others own f g)
    (hothers : ∀ T, others' T → others T) :
    Effect others' own f g :=
  { h with
    kept := fun T hT => h.kept T (hothers T hT)
    others := fun T hT => h.others T (hothers T hT) }

/-- A new transaction of the first statement has not ended in the second one. -/
theorem trans (first : Effect others own f g) (second : Effect others own g h)
    (hown : ∀ T, own T → T ≤ f.header.transactionId)
    (hcloses : ∀ T, T ≠ 0 → T ∈ g.header.activeTransactionIds.tids →
      T ∈ h.header.activeTransactionIds.tids ∨ own T) : Effect others own f h where
  lastId := first.lastId.trans second.lastId
  sound := second.sound
  ids T hT hmem := by
    rcases second.ids T hT hmem with hmem | hlt
    · exact first.ids T hT hmem
    · exact .inr (first.lastId.trans_lt hlt)
  kept T hT hmem := second.kept T hT (first.kept T hT hmem)
  absent R hzero hR hlacks := by
    refine second.absent R hzero (fun U hU => hR U ?_)
      (first.absent R hzero (fun U hU => hR U ?_) hlacks)
    · exact hU.imp_right fun ⟨hlow, hhigh⟩ => ⟨first.lastId.trans_lt hlow, hhigh⟩
    · exact hU.imp_right fun ⟨hlow, hhigh⟩ => ⟨hlow, hhigh.trans second.lastId⟩
  others T hT n hn := first.others T hT n (second.others T hT n hn)
  ended U hlow hhigh hnot := by
    rcases Nat.lt_or_ge g.header.transactionId U with hlt | hle
    · exact second.ended U hlt hhigh hnot
    · have hnotActive : U ∉ g.header.activeTransactionIds.tids := by
        intro hmem
        rcases hcloses U (by omega) hmem with hmem | howns
        · exact hnot hmem
        · have := hown U howns
          omega
      refine second.absent _ (fun tid xid heq => by omega) (fun V hV => ?_)
        (first.ended U hlow hle hnotActive)
      have hne : V ≠ U := by
        rcases hV with howns | ⟨hlt, -⟩
        · have := hown V howns
          omega
        · omega
      exact ⟨by omega, fun tid xid heq => absurd heq hne⟩

/-- The pages and the ids decide. -/
theorem congr {g' : CommittedState size} (heffect : Effect others own f g)
    (hlast : g'.header.transactionId = g.header.transactionId)
    (hids : g'.header.activeTransactionIds = g.header.activeTransactionIds)
    (hpages : g'.pages = g.pages) : Effect others own f g' := by
  obtain ⟨hle, ⟨⟨hdistinct, hbound⟩, hissued⟩, hids', hkept, habsent, hothers, hended⟩ :=
    heffect
  have htree : g'.tree.pages = g.tree.pages := hpages
  refine ⟨hlast ▸ hle, ⟨⟨hids ▸ hdistinct, ?_⟩, ?_⟩, ?_, ?_, fun R hzero hR hlacks => ?_,
    fun T hT n hn => hothers T hT n ((Btree.holdsAt_congr htree).mp hn),
    fun U hlow hhigh hnot => ?_⟩
  · rwa [hlast, hids]
  · rw [hlast]
    exact hissued.congr htree
  · rwa [hids]
  · rwa [hids]
  · rw [hlast] at hR
    exact (habsent R hzero hR hlacks).congr htree
  · rw [hlast] at hhigh
    rw [hids] at hnot
    exact (hended U hlow hhigh hnot).congr htree

/-- Nothing appears in the tree, and no id in the header. -/
theorem ofLacks (hf : f.Sound) (hle : f.header.transactionId ≤ g.header.transactionId)
    (hheader : g.header.Sound)
    (hids : ∀ T, T ≠ 0 → T ∈ g.header.activeTransactionIds.tids →
      T ∈ f.header.activeTransactionIds.tids)
    (hkept : ∀ T, others T → T ∈ f.header.activeTransactionIds.tids →
      T ∈ g.header.activeTransactionIds.tids)
    (hlacks : ∀ R : Nat → Nat → Prop, (∀ tid xid, R tid 0 → R tid xid) →
      f.tree.Lacks R → g.tree.Lacks R)
    (hothers : ∀ T, others T → ∀ n, g.tree.OwnedAt T n → f.tree.OwnedAt T n) :
    Effect others own f g := by
  have hissued : g.tree.Lacks (Later f.header.transactionId) := by
    refine hlacks _ (fun tid xid hlater => ?_) hf.issued
    simp only [Later] at hlater ⊢
    omega
  refine ⟨hle, ⟨hheader, ?_⟩, fun T hT hmem => .inl (hids T hT hmem), hkept,
    fun R hzero _ => hlacks R hzero, hothers, fun U hlow _ _ => ?_⟩
  · rintro n ⟨contents, hleaf, o, ho, hlater⟩
    refine hissued n ⟨contents, hleaf, o, ho, ?_⟩
    simp only [Later] at hlater ⊢
    omega
  · rintro n ⟨contents, hleaf, o, ho, hxid⟩
    refine hissued n ⟨contents, hleaf, o, ho, .inr ?_⟩
    simp only at hxid ⊢
    omega

/-- Objects are removed, and the id with them. -/
theorem ending {T : Nat} (hf : f.Sound) (hT : T ≠ 0)
    (hothers : ∀ U, others U → U ≠ T ∧ U ≠ 0) {t t' : Btree size}
    (hpages : t.pages = f.pages) (hpages' : t'.pages = g.pages) (hshrinks : t.Shrinks t')
    (hlast : g.header.transactionId = f.header.transactionId)
    (hids : g.header.activeTransactionIds = f.header.activeTransactionIds.remove T) :
    Effect others own f g := by
  have hmem : ∀ U, U ≠ 0 → U ∈ g.header.activeTransactionIds.tids →
      U ∈ f.header.activeTransactionIds.tids := by
    intro U hU hmem
    rw [hids] at hmem
    by_cases heq : U = T
    · subst heq
      exact absurd hmem (TransactionIds.not_mem_remove hf.header.distinct hU)
    · exact (TransactionIds.mem_remove_of_ne heq hU).mp hmem
  refine ofLacks hf hlast.ge (hf.header.of_subset ?_ hlast.ge hmem) hmem (fun U hU h => ?_)
    (fun R hzero hR => ?_) fun U hU n hn => ?_
  · rw [hids]
    exact TransactionIds.distinct_remove hf.header.distinct T
  · obtain ⟨hne, hzero⟩ := hothers U hU
    rw [hids]
    exact (TransactionIds.mem_remove_of_ne hne hzero).mpr h
  · exact ((hR.congr hpages).shrinks hzero hshrinks).congr hpages'.symm
  · have howned := hshrinks.ownedAt (hothers U hU).2
      ((Btree.holdsAt_congr (t := g.tree) hpages').mpr hn)
    exact (Btree.holdsAt_congr hpages.symm).mpr howned

end Effect

/-- An active transaction is still active, or is one that has ended, or nothing
of it is left. -/
def Settles (ended : Nat → Prop) (f f' : CommittedState size) : Prop :=
  ∀ T, T ≠ 0 → T ∈ f.header.activeTransactionIds.tids →
    T ∈ f'.header.activeTransactionIds.tids ∨ ended T ∨ f'.tree.Lacks (Owns T)

/-- The statement ends the transaction of its connection. -/
def Statement.Ends : Statement Def → Prop
  | .commit _ => True
  | .rollback => True
  | _ => False

namespace Storage

/-- What would be committed now. -/
def current (s : Storage size Def) : CommittedState size := ⟨s.header, s.btree.pages⟩

def Own (s : Storage size Def) (T : Nat) : Prop :=
  s.transactionState = .active ∧ T = s.transactionId

/-- A connection with an explicit transaction. -/
structure Holds (file : CommittedState size) (s : Storage size Def) : Prop where
  depth : s.isolationDepth = 1
  id : s.transactionId ≠ 0
  listed : s.transactionId ∈ file.header.activeTransactionIds.tids
  pages : ∀ n, file.tree.OwnedAt s.transactionId n → n ∈ s.transactionPages

/-- A connection between two statements. -/
structure Between (file : CommittedState size) (s : Storage size Def) : Prop where
  medium : s.medium = .file
  error : s.isolationError = none
  idle : s.transactionState = .notActive → s.isolationDepth = 0 ∧ s.transactionPages = []
  active : s.transactionState = .active → Holds file s

theorem Between.parked {file : CommittedState size} {s : Storage size Def}
    (h : Between file s) : s.Parked := by
  refine ⟨?_, fun hstate => (h.idle hstate).2⟩
  cases hstate : s.transactionState with
  | notActive => rw [(h.idle hstate).1]
  | active => simp [(h.active hstate).depth]

/-! ## One statement in an open database -/

theorem Steps.effect {others : Nat → Prop} {s t : Storage size Def}
    (h : Steps others s t) (ht : t.Ready) (hothers : ∀ T, others T → T ≠ 0) :
    Effect others (fun _ => False) s.current t.current where
  lastId := h.lastId
  sound := ⟨⟨ht.distinct, ht.bound⟩, ht.issued⟩
  ids T hT hmem := .inl ((h.ids T hT).mp hmem)
  kept T hT hmem := (h.ids T (hothers T hT)).mpr hmem
  absent R hzero hR hlacks := by
    exact h.absent R hzero (fun U hlow hhigh => hR U (.inr ⟨hlow, hhigh⟩)) hlacks
  others := h.others
  ended U hlow hhigh _ := h.ended U hlow hhigh

theorem Changes.effect {others : Nat → Prop} {s t : Storage size Def}
    (hstays : s.Stays t) (h : Changes s.transactionId others s t)
    (hs : s.current.Sound)
    (hlisted : s.transactionId ∈ s.header.activeTransactionIds.tids) :
    Effect others (fun T => T = s.transactionId) s.current t.current := by
  have hle : s.transactionId ≤ s.header.transactionId := hs.header.bound _ hlisted
  have hlast : t.header.transactionId = s.header.transactionId := hstays.lastId
  have hids : t.header.activeTransactionIds = s.header.activeTransactionIds := hstays.ids
  refine ⟨hlast.ge, ⟨⟨?_, ?_⟩, ?_⟩, fun T _ hmem => .inl ?_, fun T _ hmem => ?_,
    fun R hzero hR hlacks => ?_, h.others, fun U hlow hhigh _ => absurd hhigh ?_⟩
  · show t.header.activeTransactionIds.Distinct
    rw [hids]
    exact hs.header.distinct
  · intro T hT
    show T ≤ t.header.transactionId
    rw [hlast]
    exact hs.header.bound T (hids ▸ hT)
  · show t.btree.Lacks (Later t.header.transactionId)
    rw [hlast]
    refine h.absent _ ?_ (fun tid xid hlater => ?_) hs.issued
    · simp only [Later]
      omega
    · simp only [Later] at hlater ⊢
      omega
  · exact hids ▸ hmem
  · exact hids.symm ▸ hmem
  · obtain ⟨hnew, hxid⟩ := hR s.transactionId (.inl rfl)
    exact h.absent R hnew hxid hlacks
  · show ¬ U ≤ t.header.transactionId
    have hlow : s.header.transactionId < U := hlow
    omega

/-- The state in which the body of a statement that writes begins. -/
structure Begins (s : Storage size Def) : Prop where
  sound : s.current.Sound
  between : Between s.current s
  write : s.readOnly = false
  written : s.btree.writtenPages = []

theorem Begins.ready {s : Storage size Def} (hs : s.Begins)
    (hstate : s.transactionState = .notActive) : s.Ready := by
  obtain ⟨hdepth, hpages⟩ := hs.between.idle hstate
  obtain ⟨⟨hdistinct, hbound⟩, hissued⟩ := hs.sound
  exact ⟨hstate, hdepth, hpages, hs.write, hdistinct, hbound, hissued⟩

/-- What the body of a statement did, which may have ended the transaction. -/
structure Did (others : Nat → Prop) (ends : Prop) (s t : Storage size Def) : Prop where
  effect : Effect others s.Own s.current t.current
  closes : ∀ T, T ≠ 0 → T ∈ s.header.activeTransactionIds.tids →
    T ∈ t.header.activeTransactionIds.tids ∨ s.Own T ∧ ends
  between : Between t.current t
  same : t.transactionState = .active →
    s.transactionState = .active ∧ t.transactionId = s.transactionId ∨
      s.header.transactionId < t.transactionId

end Storage

theorem Work.run_did {w : Work Def} {others : Nat → Prop} {s t : Storage size Def}
    (h : w.run s = .ok () t) (ht : t.isolationError = none) (hs : s.Begins)
    (hothers : ∀ T, others T → T ≠ 0 ∧ T ≤ s.header.transactionId ∧ ¬ s.Own T)
    (hsafe : w.Safe others s) : s.Did others False t := by
  cases hstate : s.transactionState with
  | notActive =>
      obtain ⟨hsteps, hready⟩ := Work.run_idle h ht (hs.ready hstate)
        (fun T hT => ⟨(hothers T hT).1, (hothers T hT).2.1⟩) hsafe
      have hnotActive : ¬ t.transactionState = .active := by simp [hready.state]
      refine ⟨(hsteps.effect hready fun T hT => (hothers T hT).1).mono fun _ => False.elim,
        fun T hT hmem => .inl ((hsteps.ids T hT).mpr hmem),
        ⟨hsteps.medium.trans hs.between.medium, ht, fun _ => ⟨hready.depth, hready.pages⟩,
          fun h => absurd h hnotActive⟩, fun h => absurd h hnotActive⟩
  | active =>
      obtain ⟨hdepth, hid, hlisted, hpages⟩ := hs.between.active hstate
      obtain ⟨hstays, hchanges, hwritten⟩ := Work.run_active h ht hstate hs.written
        (fun T hT => ⟨fun heq => (hothers T hT).2.2 ⟨hstate, heq⟩, (hothers T hT).1⟩) hsafe
      have hactive : t.transactionState = .active := hstays.state.trans hstate
      have hids : t.header.activeTransactionIds = s.header.activeTransactionIds := hstays.ids
      refine ⟨(Storage.Changes.effect hstays hchanges hs.sound hlisted).mono
          fun T hT => ⟨hstate, hT⟩,
        fun T _ hmem => .inl (hids.symm ▸ hmem),
        ⟨hstays.medium.trans hs.between.medium, ht,
          fun h => by simp [hactive] at h, fun _ => ?_⟩,
        fun _ => .inl ⟨hstate, hstays.id⟩⟩
      refine ⟨hstays.depth.trans hdepth, hstays.id.symm ▸ hid, ?_, fun n hn => ?_⟩
      · show t.transactionId ∈ t.header.activeTransactionIds.tids
        rw [hstays.id, hids]
        exact hlisted
      · -- A page that is not remembered is as it was, and had nothing of the transaction.
        by_contra hnot
        have htouched : ¬ t.Touched n := by simp [Storage.Touched, hnot, hwritten]
        refine htouched (hchanges.touched n (.inl (hpages n ?_)))
        obtain ⟨contents, hleaf, hmem⟩ := hn
        refine ⟨contents, ?_, hstays.id ▸ hmem⟩
        rw [← hleaf]
        simp only [Btree.leafAt, Storage.current, CommittedState.tree,
          hchanges.kept n htouched]

namespace Storage

theorem startTransaction_did {others : Nat → Prop} {s t : Storage size Def}
    (h : startTransaction s = .ok () t) (hs : s.Begins)
    (hstate : s.transactionState = .notActive) (hothers : ∀ T, others T → T ≠ 0) :
    s.Did others False t := by
  have hready := hs.ready hstate
  have hdistinct : s.header.activeTransactionIds.Distinct := hs.sound.header.distinct
  have hbound : ∀ T ∈ s.header.activeTransactionIds.tids, T ≤ s.header.transactionId :=
    hs.sound.header.bound
  have hissued := hs.sound.issued
  obtain ⟨_, u, hstart, hnext⟩ := bind_eq_ok.mp h
  have hout : ¬ s.InTransaction := by simp [InTransaction, hstate, hready.depth]
  obtain ⟨ids, hadd, rfl⟩ := isolationStart_outside hstart hout hs.write
  obtain ⟨_, v, hset, hnext⟩ := bind_eq_ok.mp hnext
  obtain rfl := modify_eq_ok.mp hset
  obtain ⟨w, x, hget, hnext⟩ := bind_eq_ok.mp hnext
  obtain ⟨rfl, rfl⟩ := get_eq_ok.mp hget
  split at hnext
  next hpages =>
    obtain ⟨-, rfl⟩ := pure_eq_ok.mp hnext
    have hnew : s.header.transactionId + 1 ∉ s.header.activeTransactionIds.tids :=
      fun hmem => absurd (hbound _ hmem) (by omega)
    have hmem : ∀ T, T ≠ 0 → (T ∈ ids.tids ↔
        T = s.header.transactionId + 1 ∨ T ∈ s.header.activeTransactionIds.tids) :=
      fun T hT => TransactionIds.mem_add hadd hT
    refine ⟨⟨Nat.le_succ _, ⟨⟨TransactionIds.distinct_add hadd hdistinct hnew, ?_⟩, ?_⟩,
        fun T hT hids => ?_, fun T hT hids => (hmem T (hothers T hT)).mpr (.inr hids),
        fun R _ _ hlacks => hlacks, fun T _ n hn => hn, fun U hlow hhigh hnot => ?_⟩,
      fun T hT hids => .inl ((hmem T hT).mpr (.inr hids)),
      ⟨hs.between.medium, hs.between.error, fun h => by simp at h, fun _ => ⟨rfl, ?_, ?_, ?_⟩⟩,
      fun _ => .inr (Nat.lt_succ_self _)⟩
    · intro T hids
      show T ≤ s.header.transactionId + 1
      by_cases hzero : T = 0
      · omega
      · rcases (hmem T hzero).mp hids with heq | hids
        · omega
        · have := hbound T hids
          omega
    · rintro n ⟨contents, hleaf, o, ho, hlater⟩
      refine hissued n ⟨contents, hleaf, o, ho, ?_⟩
      simp only [Later, current] at hlater ⊢
      omega
    · rcases (hmem T hT).mp hids with heq | hids
      · exact .inr (heq ▸ Nat.lt_succ_self _)
      · exact .inl hids
    · have hU : U = s.header.transactionId + 1 := by
        simp only [current] at hlow hhigh
        omega
      exact absurd ((hmem U (by omega)).mpr (.inl hU)) hnot
    · exact Nat.succ_ne_zero _
    · exact (hmem _ (Nat.succ_ne_zero _)).mpr (.inl rfl)
    · rintro n ⟨contents, hleaf, o, ho, howns⟩
      refine absurd ⟨contents, hleaf, o, ho, ?_⟩ (hissued n)
      simp only [Owns, Later, current] at howns ⊢
      omega
  next => cases hnext

/-! ## The end of a transaction -/

/-- Nothing but the transaction has ended. -/
theorem endTransaction_ok {fault : Option Failure} {s t : Storage size Def}
    (h : endTransaction fault s = .ok () t) (hdepth : s.isolationDepth = 1)
    (hwrite : s.readOnly = false) :
    ∃ b, s.btree.Shrinks b ∧ { s with
      transactionState := .notActive
      isolationDepth := 0
      transactionPages := []
      btree := b
      header := { s.header with
        activeTransactionIds := s.header.activeTransactionIds.remove s.transactionId }
      constraintModes := .empty
      deferredChecks := .empty } = t := by
  obtain ⟨_, u, hset, hnext⟩ := bind_eq_ok.mp h
  obtain rfl := modify_eq_ok.mp hset
  obtain ⟨_, u, hend, hlast⟩ := bind_eq_ok.mp hnext
  obtain rfl := modify_eq_ok.mp hlast
  have hleft : ({ s with transactionState := .notActive } : Storage size Def).leftIsolation =
      keepWrittenPages { s with transactionState := .notActive, isolationDepth := 0 } := by
    simp [leftIsolation, leaveIsolation, hdepth]
  have hends : ¬ ({ s with transactionState := .notActive } :
      Storage size Def).leftIsolation.Continues := by
    rw [hleft]
    simp [Continues, keepWrittenPages, hwrite]
  obtain ⟨hcontinues, -⟩ | ⟨-, b, hremove, rfl⟩ := isolationEnd_eq_ok hend
  · exact absurd hcontinues hends
  rw [hleft] at hremove ⊢
  obtain ⟨hlength, hroot, hpage⟩ := removeExpiredObjects_shrinks hremove
  exact ⟨b, ⟨hlength, hroot, hpage⟩, rfl⟩

/-- The effect of the end of a transaction whose objects have been removed. -/
theorem endTransaction_did {others : Nat → Prop} {fault : Option Failure}
    {s t : Storage size Def} {b : Btree size} (hs : s.Begins)
    (hstate : s.transactionState = .active) (hshrinks : s.btree.Shrinks b)
    (h : endTransaction fault { s with btree := b } = .ok () t)
    (hothers : ∀ T, others T → T ≠ 0 ∧ ¬ s.Own T) :
    Effect others s.Own s.current t.current ∧ b.Shrinks t.btree ∧
      t.header.activeTransactionIds = s.header.activeTransactionIds.remove s.transactionId ∧
      t.medium = s.medium ∧ t.readOnly = false ∧ t.isolationError = s.isolationError ∧
      t.transactionState = .notActive ∧ t.isolationDepth = 0 ∧ t.transactionPages = [] := by
  obtain ⟨hdepth, hid, -, -⟩ := hs.between.active hstate
  obtain ⟨b', hshrinks', rfl⟩ := endTransaction_ok h hdepth hs.write
  refine ⟨?_, hshrinks', rfl, rfl, hs.write, rfl, rfl, rfl, rfl⟩
  refine Effect.ending hs.sound hid (fun U hU => ?_) (rfl : s.btree.pages = _)
    (rfl : b'.pages = _) (hshrinks.trans hshrinks') rfl rfl
  exact ⟨fun heq => (hothers U hU).2 ⟨hstate, heq⟩, (hothers U hU).1⟩

/-- The transaction has ended, and nothing is left of the objects `R`. -/
structure Ended (R : Nat → Nat → Prop) (s t : Storage size Def) : Prop where
  ids : s.transactionId ∉ t.header.activeTransactionIds.tids
  lacks : t.btree.Lacks R

theorem closes_remove {s t : Storage size Def} (hstate : s.transactionState = .active)
    (hids : ∀ T, T ≠ 0 → (T ∈ (s.header.activeTransactionIds.remove s.transactionId).tids →
      T ∈ t.header.activeTransactionIds.tids)) {T : Nat} (hT : T ≠ 0)
    (hmem : T ∈ s.header.activeTransactionIds.tids) :
    T ∈ t.header.activeTransactionIds.tids ∨ s.Own T ∧ True := by
  by_cases heq : T = s.transactionId
  · exact .inr ⟨⟨hstate, heq⟩, trivial⟩
  · exact .inl (hids T hT ((TransactionIds.mem_remove_of_ne heq hT).mpr hmem))

theorem commitTransaction_error {fault : Option Failure} {s t : Storage size Def}
    (h : commitTransaction fault s = .ok () t) (ht : t.isolationError = none) :
    s.isolationError = none := by
  obtain ⟨u, v, hget, hnext⟩ := bind_eq_ok.mp h
  obtain ⟨rfl, rfl⟩ := get_eq_ok.mp hget
  obtain ⟨_, u, hremove, hnext⟩ := bind_eq_ok.mp hnext
  obtain ⟨b, -, rfl⟩ := onBtree_eq_ok.mp hremove
  obtain ⟨_, u, hend, hlast⟩ := bind_eq_ok.mp hnext
  have hu : u.isolationError = none := by
    split at hlast
    · obtain rfl := modify_eq_ok.mp hlast
      exact ht
    · obtain ⟨-, rfl⟩ := pure_eq_ok.mp hlast
      exact ht
  obtain ⟨_, v, hset, hrest⟩ := bind_eq_ok.mp hend
  obtain rfl := modify_eq_ok.mp hset
  obtain ⟨_, w, hleave, hmodes⟩ := bind_eq_ok.mp hrest
  obtain rfl := modify_eq_ok.mp hmodes
  exact (isolationEnd_error hleave).symm.trans hu

theorem commitTransaction_did {others : Nat → Prop} {fault : Option Failure}
    {s t : Storage size Def} (h : commitTransaction fault s = .ok () t)
    (ht : t.isolationError = none) (hs : s.Begins) (hstate : s.transactionState = .active)
    (hothers : ∀ T, others T → T ≠ 0 ∧ ¬ s.Own T) :
    s.Did others True t ∧ Ended (fun _ xid => xid = s.transactionId) s t := by
  obtain ⟨hdepth, hid, -, hpages⟩ := hs.between.active hstate
  obtain ⟨u, v, hget, hnext⟩ := bind_eq_ok.mp h
  obtain ⟨rfl, rfl⟩ := get_eq_ok.mp hget
  obtain ⟨_, u, hremove, hnext⟩ := bind_eq_ok.mp hnext
  obtain ⟨b, hb, rfl⟩ := onBtree_eq_ok.mp hremove
  obtain ⟨_, u, hend, hnext⟩ := bind_eq_ok.mp hnext
  obtain ⟨heffect, hshrinks, hids, hmedium, -, -, hnot, hzero, hnil⟩ :=
    endTransaction_did hs hstate (removeExpiredObjects_shrinks hb) hend hothers
  have hlacks : u.btree.Lacks fun _ xid => xid = s.transactionId := by
    intro n hn
    have hexpired := hshrinks.expiredAt hid hn
    refine removeExpiredObjects_expiredAt hid hb (hpages n ?_) hexpired
    obtain ⟨contents, hleaf, o, ho, hxid⟩ :=
      (removeExpiredObjects_shrinks hb).expiredAt hid hexpired
    exact ⟨contents, hleaf, o, ho, .inr hxid⟩
  have hsame : t.header.transactionId = u.header.transactionId ∧
      t.header.activeTransactionIds = u.header.activeTransactionIds ∧
      t.btree = u.btree ∧ t.medium = u.medium ∧ t.transactionState = u.transactionState ∧
      t.isolationDepth = u.isolationDepth ∧ t.transactionPages = u.transactionPages := by
    split at hnext
    · obtain rfl := modify_eq_ok.mp hnext
      exact ⟨rfl, rfl, rfl, rfl, rfl, rfl, rfl⟩
    · obtain ⟨-, rfl⟩ := pure_eq_ok.mp hnext
      exact ⟨rfl, rfl, rfl, rfl, rfl, rfl, rfl⟩
  obtain ⟨hlast, htids, hbtree, hm, hst, hd, hp⟩ := hsame
  have hnotActive : ¬ t.transactionState = .active := by simp [hst, hnot]
  have hpages' : t.btree.pages = u.btree.pages := by rw [hbtree]
  refine ⟨⟨heffect.congr hlast htids hpages', fun T hT hmem => ?_,
    ⟨hm.trans (hmedium.trans hs.between.medium), ht,
      fun _ => ⟨hd.trans hzero, hp.trans hnil⟩, fun h => absurd h hnotActive⟩,
    fun h => absurd h hnotActive⟩, ?_, hlacks.congr hpages'⟩
  · exact closes_remove hstate (fun T _ h => by rw [htids, hids]; exact h) hT hmem
  · rw [htids, hids]
    exact TransactionIds.not_mem_remove hs.sound.header.distinct hid

theorem rollbackTransaction_did {others : Nat → Prop} {parser : SchemaParser Def}
    {fault : Option Failure} {loadFault : OpenFault} {s t : Storage size Def}
    (h : rollbackTransaction parser fault loadFault s = .ok () t)
    (ht : t.isolationError = none) (hs : s.Begins) (hstate : s.transactionState = .active)
    (hothers : ∀ T, others T → T ≠ 0 ∧ T ≤ s.header.transactionId ∧ ¬ s.Own T) :
    s.Did others True t ∧ Ended (Owns s.transactionId) s t := by
  obtain ⟨hdepth, hid, hlisted, hpages⟩ := hs.between.active hstate
  have hbound : s.transactionId ≤ s.header.transactionId :=
    hs.sound.header.bound _ hlisted
  obtain ⟨u, v, hget, hnext⟩ := bind_eq_ok.mp h
  obtain ⟨rfl, rfl⟩ := get_eq_ok.mp hget
  obtain ⟨_, u, hundo, hnext⟩ := bind_eq_ok.mp hnext
  obtain ⟨b, hb, rfl⟩ := onBtree_eq_ok.mp hundo
  obtain ⟨_, u, hend, hnext⟩ := bind_eq_ok.mp hnext
  obtain ⟨heffect, hshrinks, hids, hmedium, hwrite, herror, hnot, hzero, hnil⟩ :=
    endTransaction_did hs hstate (undoPages_shrinks hb) hend
      fun T hT => ⟨(hothers T hT).1, (hothers T hT).2.2⟩
  have hlacks : u.btree.Lacks (Owns s.transactionId) := by
    intro n hn
    have howned := hshrinks.ownedAt hid hn
    exact undoPages_ownedAt hid hb
      (hpages n ((undoPages_shrinks hb).ownedAt hid howned)) howned
  have hgone : s.transactionId ∉ u.header.activeTransactionIds.tids := by
    rw [hids]
    exact TransactionIds.not_mem_remove hs.sound.header.distinct hid
  have hcloses : ∀ T, T ≠ 0 → T ∈ s.header.activeTransactionIds.tids →
      T ∈ u.header.activeTransactionIds.tids ∨ s.Own T ∧ True :=
    fun T hT hmem => closes_remove hstate (fun T _ h => by rw [hids]; exact h) hT hmem
  split at hnext
  next =>
    obtain ⟨_, v, hset, hload⟩ := bind_eq_ok.mp hnext
    obtain rfl := modify_eq_ok.mp hset
    have hready : (schemaChanged u).Ready :=
      ⟨hnot, hzero, hnil, hwrite, heffect.sound.header.distinct, heffect.sound.header.bound,
        heffect.sound.issued⟩
    have hle : s.header.transactionId ≤ u.header.transactionId := heffect.lastId
    have hbounded : ∀ T, others T → T ≠ 0 ∧ T ≤ (schemaChanged u).header.transactionId :=
      fun T hT => ⟨(hothers T hT).1, (hothers T hT).2.1.trans hle⟩
    obtain ⟨hsteps, htready⟩ := isolated_outside hready hload ht hbounded
      fun v w _ _ _ hbody _ => by
        obtain ⟨_, _, _, rfl⟩ := (loadDefinitions_loads parser loadFault).moves v () w hbody
        exact ⟨by constructor <;> rfl, (Changes.refl v).congr rfl rfl⟩
    have hnotActive : ¬ t.transactionState = .active := by simp [htready.state]
    have hmem : ∀ T, T ≠ 0 → (T ∈ t.header.activeTransactionIds.tids ↔
        T ∈ u.header.activeTransactionIds.tids) := hsteps.ids
    have hchanged : Effect others s.Own s.current (schemaChanged u).current :=
      heffect.congr rfl rfl rfl
    refine ⟨⟨?_, fun T hT h => ?_, ⟨?_, ht, fun _ => ⟨htready.depth, htready.pages⟩,
      fun h => absurd h hnotActive⟩, fun h => absurd h hnotActive⟩, ?_, ?_⟩
    · refine hchanged.trans ((hsteps.effect htready fun T hT => (hothers T hT).1).mono
        fun _ => False.elim) (fun T hT => hT.2 ▸ hbound) fun T hT h => .inl ?_
      exact (hmem T hT).mpr h
    · exact (hcloses T hT h).imp_left (hmem T hT).mpr
    · exact hsteps.medium.trans (hmedium.trans hs.between.medium)
    · exact fun h => hgone ((hmem _ hid).mp h)
    · refine hsteps.absent (Owns s.transactionId) (fun tid xid howns => ?_)
        (fun U hU _ => ?_) hlacks
      · exact Owns.of_xid hid howns
      · have hne : s.transactionId ≠ U := by
          have hlt : u.header.transactionId < U := hU
          omega
        exact ⟨not_owns_new hne hid, fun tid xid howns => Owns.of_xid hne howns⟩
  next =>
    obtain ⟨-, rfl⟩ := pure_eq_ok.mp hnext
    have hnotActive : ¬ u.transactionState = .active := by simp [hnot]
    exact ⟨⟨heffect, hcloses, ⟨hmedium.trans hs.between.medium, ht,
      fun _ => ⟨hzero, hnil⟩, fun h => absurd h hnotActive⟩, fun h => absurd h hnotActive⟩,
      hgone, hlacks⟩

end Storage

/-! ## Whole statements -/

/-- The statement does not move the objects of other transactions. -/
def Statement.Safe (others : Nat → Prop) (s : Storage size Def) : Statement Def → Prop
  | .change body => body.Safe others s
  | .commit checks => checks.Safe others s
  | _ => True

theorem Statement.body_did {others : Nat → Prop} {parser : SchemaParser Def}
    {faults : Faults} {stmt : Statement Def} {s t : Storage size Def}
    (h : stmt.body parser faults s = .ok () t) (ht : t.isolationError = none)
    (hs : s.Begins) (haccepted : stmt.refusal s.transactionState = none)
    (hwrites : ¬ stmt.Reads)
    (hothers : ∀ T, others T → T ≠ 0 ∧ T ≤ s.header.transactionId ∧ ¬ s.Own T)
    (hsafe : stmt.Safe others s) :
    s.Did others stmt.Ends t ∧
      ((∃ checks, stmt = .commit checks) →
        Storage.Ended (fun _ xid => xid = s.transactionId) s t) ∧
      (stmt = .rollback → Storage.Ended (Owns s.transactionId) s t) := by
  cases stmt with
  | read body => exact absurd trivial hwrites
  | change body =>
      exact ⟨Work.run_did h ht hs hothers hsafe, fun ⟨_, h⟩ => (nomatch h), fun h => (nomatch h)⟩
  | startTransaction =>
      have hstate : s.transactionState = .notActive := by
        cases hstate : s.transactionState with
        | notActive => rfl
        | active => simp [Statement.refusal, hstate] at haccepted
      exact ⟨Storage.startTransaction_did h hs hstate fun T hT => (hothers T hT).1,
        fun ⟨_, h⟩ => (nomatch h), fun h => (nomatch h)⟩
  | commit checks =>
      have hstate : s.transactionState = .active := by
        cases hstate : s.transactionState with
        | active => rfl
        | notActive => simp [Statement.refusal, hstate] at haccepted
      obtain ⟨_, u, hchecks, hcommit⟩ := bind_eq_ok.mp h
      have hu := Storage.commitTransaction_error hcommit ht
      have hdid := Work.run_did hchecks hu hs hothers hsafe
      obtain ⟨hstays, -, hwritten⟩ := Work.run_active hchecks hu hstate hs.written
        (fun T hT => ⟨fun heq => (hothers T hT).2.2 ⟨hstate, heq⟩, (hothers T hT).1⟩) hsafe
      have hbegins : u.Begins :=
        ⟨hdid.effect.sound, hdid.between, hstays.readOnly.trans hs.write, hwritten⟩
      have hown : ∀ T, u.Own T ↔ s.Own T := by
        intro T
        simp [Storage.Own, hstays.state, hstays.id]
      have hnotOwn : ∀ T, others T → T ≠ 0 ∧ ¬ u.Own T :=
        fun T hT => ⟨(hothers T hT).1, fun h => (hothers T hT).2.2 ((hown T).mp h)⟩
      obtain ⟨hdid', hended⟩ := Storage.commitTransaction_did hcommit ht hbegins
        (hstays.state.trans hstate) hnotOwn
      have hbound : s.transactionId ≤ s.header.transactionId :=
        hs.sound.header.bound _ (hs.between.active hstate).listed
      rw [hstays.id] at hended
      refine ⟨⟨?_, fun T hT hmem => ?_, hdid'.between, fun hactive => ?_⟩,
        fun _ => ⟨hstays.id ▸ hended.ids, hended.lacks⟩, fun h => (nomatch h)⟩
      · exact hdid.effect.trans (hdid'.effect.mono fun T hT => (hown T).mp hT)
          (fun T hT => hT.2 ▸ hbound)
          fun T hT hmem => (hdid'.closes T hT hmem).imp_right fun h => (hown T).mp h.1
      · rcases hdid.closes T hT hmem with hmem | howns
        · exact (hdid'.closes T hT hmem).imp_right fun h => ⟨(hown T).mp h.1, trivial⟩
        · exact .inr ⟨howns.1, trivial⟩
      · rcases hdid'.same hactive with ⟨-, hid⟩ | hlt
        · exact .inl ⟨hstate, hid.trans hstays.id⟩
        · exact .inr (hstays.lastId ▸ hlt)
  | rollback =>
      have hstate : s.transactionState = .active := by
        cases hstate : s.transactionState with
        | active => rfl
        | notActive => simp [Statement.refusal, hstate] at haccepted
      obtain ⟨hdid, hended⟩ := Storage.rollbackTransaction_did h ht hs hstate hothers
      exact ⟨hdid, fun ⟨_, h⟩ => (nomatch h), fun _ => hended⟩

end Vsql
