import Vsql.TransactionEnds

/-!
# Uncommitted data

In the file every object belongs to a transaction that has committed or that is
still active, so that no other transaction can see what was never committed.
Recovery must not be undone halfway for this: the active ids that it removes are
written by the statement that it was part of, and so are the pages it changes.
-/

namespace Vsql

open Foundation StateError

variable {size : PageSize} {Def : Type}

namespace Sessions

/-- A transaction that has committed, or that is still active. -/
def Known (S : Sessions size Def) (T : Nat) : Prop :=
  T ≠ 0 ∧ (T ∈ S.committed ∨ T ∈ S.file.header.activeTransactionIds.tids)

/-- The transactions of an object are known. -/
def Accounted (known : Nat → Prop) (tid xid : Nat) : Prop :=
  known tid ∧ (xid = 0 ∨ known xid)

def AllKnown (S : Sessions size Def) : Prop :=
  ∀ n contents, S.file.tree.leafAt n = some contents →
    ∀ o ∈ contents, Accounted S.Known o.tid o.xid

theorem allKnown_iff {S : Sessions size Def} :
    S.AllKnown ↔ S.file.tree.Lacks fun tid xid => ¬ Accounted S.Known tid xid := by
  constructor
  · rintro h n ⟨contents, hleaf, o, ho, hnot⟩
    exact hnot (h n contents hleaf o ho)
  · intro h n contents hleaf o ho
    by_contra hnot
    exact h n ⟨contents, hleaf, o, ho, hnot⟩

/-- Only the transaction itself sees what it has not committed. -/
theorem AllKnown.visible {S : Sessions size Def} (h : S.AllKnown) {n : Nat}
    {contents : List PageObject} (hleaf : S.file.tree.leafAt n = some contents)
    {o : PageObject} (ho : o ∈ contents) {own : Nat}
    (hvisible : objectIsVisible o.tid o.xid own S.file.header.activeTransactionIds = true) :
    o.tid = own ∨ o.tid ∈ S.committed := by
  obtain ⟨⟨hzero, hknown⟩, -⟩ := h n contents hleaf o ho
  rcases hknown with hcommitted | hactive
  · exact .inr hcommitted
  · left
    by_contra hne
    have hcontains := (TransactionIds.contains_iff _ hzero).mpr hactive
    simp [objectIsVisible, hcontains, hne] at hvisible

/-- A statement that fails after it has recovered from other transactions does
not write the values of sequences. -/
def RecoversWhole (parser : SchemaParser Def) (S : Sessions size Def) :
    SessionEvent Def → Prop
  | .execute connection stmt faults => ∀ s t, S.connections[connection]? = some (some s) →
      Storage.Replays parser (S.alone connection) faults stmt
          { s with committed := S.file } t →
        s.deadIds (S.alone connection) S.file.header = []
  | _ => True

/-- The ids and objects after a step, compared with the ones before. -/
theorem AllKnown.of_effect {S S' : Sessions size Def} {others own ended : Nat → Prop}
    (hS : S.AllKnown) (heffect : Effect others own S.file S'.file)
    (hown : ∀ U, own U → U ≠ 0 ∧ U ∈ S.file.header.activeTransactionIds.tids)
    (hcommitted : ∀ T ∈ S.committed, T ∈ S'.committed)
    (hnew : ∀ U, S.file.header.transactionId < U → U ≤ S'.file.header.transactionId →
      S'.Known U)
    (hsettles : Settles ended S.file S'.file)
    (hended : ∀ T, ended T → T ∈ S'.committed ∨ S'.file.tree.Lacks (Owns T)) :
    S'.AllKnown := by
  -- First with the ids before and after the step.
  let known : Nat → Prop := fun T => S'.Known T ∨ S.Known T
  have hlacks : S'.file.tree.Lacks fun tid xid => ¬ Accounted known tid xid := by
    refine heffect.absent _ (fun tid xid h => ?_) (fun U hU => ?_) fun n hn => ?_
    · refine fun hknown => h ⟨hknown.1, .inl rfl⟩
    · have hU : known U := by
        rcases hU with howns | ⟨hlow, hhigh⟩
        · exact .inr ⟨(hown U howns).1, .inr (hown U howns).2⟩
        · exact .inl (hnew U hlow hhigh)
      exact ⟨fun h => h ⟨hU, .inl rfl⟩, fun tid xid h hknown => h ⟨hknown.1, .inr hU⟩⟩
    · obtain ⟨contents, hleaf, o, ho, hnot⟩ := hn
      obtain ⟨htid, hxid⟩ := hS n contents hleaf o ho
      exact hnot ⟨.inr htid, hxid.imp_right .inr⟩
  intro n contents hleaf o ho
  have hknown : Accounted known o.tid o.xid := by
    by_contra hnot
    exact hlacks n ⟨contents, hleaf, o, ho, hnot⟩
  -- An id that is no longer active has committed, or has no objects.
  have hmove : ∀ T, Owns T o.tid o.xid → known T → S'.Known T := by
    intro T howns hT
    rcases hT with hT | ⟨hzero, hcommit | hactive⟩
    · exact hT
    · exact ⟨hzero, .inl (hcommitted T hcommit)⟩
    · have hnone : ¬ S'.file.tree.Lacks (Owns T) :=
        fun h => h n ⟨contents, hleaf, o, ho, howns⟩
      rcases hsettles T hzero hactive with h | h | h
      · exact ⟨hzero, .inr h⟩
      · rcases hended T h with h | h
        · exact ⟨hzero, .inl h⟩
        · exact absurd h hnone
      · exact absurd h hnone
  exact ⟨hmove o.tid (.inl rfl) hknown.1, hknown.2.imp_right (hmove o.xid (.inr rfl))⟩

theorem AllKnown.mono {S S' : Sessions size Def} (hS : S.AllKnown)
    (hlacks : ∀ R : Nat → Nat → Prop, S.file.tree.Lacks R → S'.file.tree.Lacks R)
    (hcommitted : ∀ T ∈ S.committed, T ∈ S'.committed)
    (hids : ∀ T, T ≠ 0 → T ∈ S.file.header.activeTransactionIds.tids →
      T ∈ S'.file.header.activeTransactionIds.tids) : S'.AllKnown := by
  have hknown : ∀ T, S.Known T → S'.Known T :=
    fun T ⟨hzero, h⟩ => ⟨hzero, h.imp (hcommitted T) (hids T hzero)⟩
  rw [allKnown_iff] at hS ⊢
  rintro n ⟨contents, hleaf, o, ho, hnot⟩
  refine hlacks _ hS n ⟨contents, hleaf, o, ho, fun h => hnot ?_⟩
  exact ⟨hknown _ h.1, h.2.imp_right (hknown _)⟩

theorem AllKnown.step {parser : SchemaParser Def} {S : Sessions size Def}
    (hknown : S.AllKnown) (hS : S.Ledger) {e : SessionEvent Def}
    (hallowed : S.Allowed parser e) (hwhole : S.RecoversWhole parser e) :
    (S.step parser e).AllKnown := by
  cases e with
  | connect => exact hknown
  | close c => exact hknown
  | execute c stmt faults =>
      rcases hc : S.connections[c]? with _ | _ | s
      · simpa only [Sessions.step, hc] using hknown
      · simpa only [Sessions.step, hc] using hknown
      obtain ⟨hlog, hsafe, hplace⟩ := hallowed s hc
      have hacts := hS.acts hc
      have hrun' : S.step parser (.execute c stmt faults) =
          S.run parser c stmt faults { s with committed := S.file } := by
        simp only [Sessions.step, hc]
      rw [hrun', Sessions.run]
      cases hrun : Storage.execute parser (S.alone c) faults stmt
          { s with committed := S.file } with
      | mk t result =>
          cases result with
          | some e =>
              obtain ⟨-, -, hfile⟩ := Storage.execute_failed hrun
                hacts.between.parked hacts.between.medium hacts.between.error hlog
              rcases hfile with hsame | hreplays
              · have hsame : t.committed = S.file := hsame
                refine hknown.mono (fun R hR => ?_) (fun T hT => hT) fun T _ hmem => ?_
                · show t.committed.tree.Lacks R
                  rwa [hsame]
                · show T ∈ t.committed.header.activeTransactionIds.tids
                  rwa [hsame]
              · obtain ⟨u, hopened, -, hids, hconfines⟩ :=
                  hreplays.parts hacts.between hacts.file hplace
                have hdead := hwhole s t hc hreplays
                refine hknown.mono (fun R hR n hn => hR n (hconfines R n hn)) (fun T hT => hT)
                  fun T hT hmem => ?_
                show T ∈ t.committed.header.activeTransactionIds.tids
                rw [hids, hopened.ids T hT]
                have hnone : Storage.deadIds (S.alone c) { s with committed := S.file }
                    S.file.header = [] := hdead
                exact ⟨hmem, by rw [hnone]; simp⟩
          | none =>
              have hkeep : ∀ T ∈ S.committed, T ∈ committedBy stmt
                  { s with committed := S.file } t ++ S.committed :=
                fun T hT => List.mem_append_right _ hT
              rcases Storage.execute_ok hrun hacts.between.parked with
                ⟨-, -, hsame, -⟩ | ⟨hwrites, hwrote⟩
              · have hsame : t.committed = S.file := hsame
                refine hknown.mono (fun R hR => ?_) hkeep fun T _ hmem => ?_
                · show t.committed.tree.Lacks R
                  rwa [hsame]
                · show T ∈ t.committed.header.activeTransactionIds.tids
                  rwa [hsame]
              · have hwrites := hwrote.writes hwrites hacts.between hacts.file hacts.others hsafe
                refine hknown.of_effect hwrites.effect (fun U hU => ?_) hkeep
                  (fun U hlow hhigh => ?_) hwrites.settles fun T hT => ?_
                · exact ⟨hU.2 ▸ (hacts.between.active hU.1).id, hacts.own U hU⟩
                · have hhigh : U ≤ t.committed.header.transactionId := hhigh
                  refine ⟨by omega, ?_⟩
                  by_cases hmem : U ∈ t.committed.header.activeTransactionIds.tids
                  · exact .inr hmem
                  · refine .inl (List.mem_append_left _ (List.mem_append_left _ ?_))
                    simp only [implicitIds, List.mem_filter, List.mem_range'_1,
                      decide_eq_true_eq]
                    exact ⟨⟨hlow, by omega⟩, hmem⟩
                · obtain ⟨⟨-, rfl⟩, hends⟩ := hT
                  cases stmt with
                  | commit checks =>
                      refine .inl (List.mem_append_left _ (List.mem_append_right _ ?_))
                      simp
                  | rollback => exact .inr (hwrites.rollsBack rfl).2.2
                  | _ => exact hends.elim

/-- The invariant of a run in which recovery is never undone halfway. -/
def KnownLedger (S : Sessions size Def) : Prop := S.Ledger ∧ S.AllKnown

theorem KnownLedger.init : (init : Sessions size Def).KnownLedger := by
  refine ⟨Ledger.init, fun n contents hleaf => ?_⟩
  simp [Btree.leafAt, CommittedState.tree, Sessions.init] at hleaf

theorem KnownLedger.step {parser : SchemaParser Def} {S : Sessions size Def}
    (h : S.KnownLedger) {e : SessionEvent Def}
    (hallowed : S.Allowed parser e ∧ S.RecoversWhole parser e) :
    (S.step parser e).KnownLedger :=
  ⟨h.1.step hallowed.1, h.2.step h.1 hallowed.1 hallowed.2⟩

theorem allKnown_of_reaches {parser : SchemaParser Def} {S : Sessions size Def}
    (h : Reaches (Step parser) (fun S e => S.Allowed parser e ∧ S.RecoversWhole parser e)
      init S) :
    S.AllKnown ∧ ∀ n contents, S.file.tree.leafAt n = some contents → ∀ o ∈ contents,
      ∀ own, objectIsVisible o.tid o.xid own S.file.header.activeTransactionIds = true →
        o.tid = own ∨ o.tid ∈ S.committed := by
  have hboth : S.KnownLedger :=
    h.invariant (fun _ _ _ hS hallowed hstep => hstep ▸ hS.step hallowed) KnownLedger.init
  exact ⟨hboth.2, fun n contents hleaf o ho own => hboth.2.visible hleaf ho⟩

/-! ## Runs -/

theorem recoversWhole_of_issuesNothing {parser : SchemaParser Def} {S : Sessions size Def}
    {c : Nat} {stmt : Statement Def} {faults : Faults}
    (h : S.issuesNothing parser c stmt faults = true) :
    S.RecoversWhole parser (.execute c stmt faults) := by
  intro s t hs hreplays
  obtain ⟨u, v, b, hopen, rfl, hvalues, -⟩ := hreplays
  simp only [issuesNothing, hs, hopen, List.isEmpty_iff] at h
  exact absurd h hvalues

/-- The first connection dies, and the second one recovers from its transaction. -/
def recoverAndInsert : List (SessionEvent Unit) :=
  [.connect, .execute 0 .startTransaction noFaults, .execute 0 (insertRow 9) noFaults,
    .close 0, .connect, .execute 1 (insertRow 1) noFaults]

theorem allKnown_of_recoverAndInsert : (after recoverAndInsert).AllKnown := by
  have hadd : ∀ id, ∀ s : Storage page200 Unit, (insertRow id).Safe (fun _ => False) s := by
    intro id s
    simp [insertRow, Statement.Safe, Work.Safe, Actions.Safe, Op.Safe]
  let Whole : Sessions page200 Unit → SessionEvent Unit → Prop :=
    fun S e => S.Allowed noDefinitions e ∧ S.RecoversWhole noDefinitions e
  have hnext : ∀ {events : List (SessionEvent Unit)} (e : SessionEvent Unit),
      Reaches (Step noDefinitions) Whole init (after events) → Whole (after events) e →
      Reaches (Step noDefinitions) Whole init (after (events ++ [e])) :=
    fun e h hwhole => .next h hwhole (by simp [Step, after, List.foldl_append])
  have hconnect := hnext .connect (.refl (after [])) ⟨trivial, trivial⟩
  have hstart := hnext (.execute 0 .startTransaction noFaults) hconnect
    ⟨allowed_of_alone (by decide +kernel) trivial (by decide +kernel) fun _ => trivial,
      recoversWhole_of_issuesNothing (by decide +kernel)⟩
  have hinsert := hnext (.execute 0 (insertRow 9) noFaults) hstart
    ⟨allowed_of_alone (by decide +kernel) trivial (by decide +kernel) (hadd 9),
      recoversWhole_of_issuesNothing (by decide +kernel)⟩
  have hclose := hnext (.close 0) hinsert ⟨trivial, trivial⟩
  have hconnect' := hnext .connect hclose ⟨trivial, trivial⟩
  exact (allKnown_of_reaches (hnext (.execute 1 (insertRow 1) noFaults) hconnect'
    ⟨allowed_of_alone (by decide +kernel) trivial (by decide +kernel) (hadd 1),
      recoversWhole_of_issuesNothing (by decide +kernel)⟩)).1

/-- A statement that recovers, issues a value of a sequence and then fails. -/
def issueAndFail : Statement Unit :=
  .change (.isolation none (.op (.nextValue (.new [0x51, 1] 3 0 [0]) [1])
    (.fail (.error .s22012 "division by zero"))) .done)

def recoverAndFail : List (SessionEvent Unit) :=
  [.connect,
    .execute 0 (.change (.isolation none (.op (.add [0x51, 1] [0]) .done) .done)) noFaults,
    .connect, .execute 1 .startTransaction noFaults, .execute 1 (insertRow 9) noFaults,
    .close 1, .execute 0 issueAndFail noFaults]

/-- The row of the transaction that died is in the file, and its id is not. -/
theorem not_allKnown_of_recoverAndFail : ¬ (after recoverAndFail).AllKnown := by
  intro h
  have hleaf : ∃ contents, (after recoverAndFail).file.tree.leafAt 0 = some contents ∧
      ∃ o ∈ contents, o.tid ∉ (after recoverAndFail).committed ∧
        o.tid ∉ (after recoverAndFail).file.header.activeTransactionIds.tids := by
    decide +kernel
  obtain ⟨contents, hleaf, o, ho, hcommitted, hactive⟩ := hleaf
  obtain ⟨⟨-, hknown⟩, -⟩ := h 0 contents hleaf o ho
  exact hknown.elim hcommitted hactive

end Sessions
end Vsql
