import Vsql.Transactions.Opened

/-!
# Statements that fail

A statement that fails is discarded.  The connection is where it was before the
statement, and the file is only changed by the values that sequences issued.
-/

namespace Vsql

open Foundation StateError

variable {size : PageSize} {Def : Type}

namespace Storage

/-! ## What no statement changes -/

/-- The file and the snapshot are not changed before a statement ends. -/
structure Held (s t : Storage size Def) : Prop where
  medium : t.medium = s.medium
  committed : t.committed = s.committed
  snapshot : t.snapshot = s.snapshot

namespace Held

theorem refl (s : Storage size Def) : Held s s := ⟨rfl, rfl, rfl⟩

theorem trans (s t u : Storage size Def) (first : Held s t) (second : Held t u) :
    Held s u where
  medium := second.medium.trans first.medium
  committed := second.committed.trans first.committed
  snapshot := second.snapshot.trans first.snapshot

theorem bind {α β : Type} {x : StorageM size Def α} {f : α → StorageM size Def β}
    (hx : Always Held x) (hf : ∀ a, Always Held (f a)) : Always Held (x >>= f) :=
  Always.bind trans hx hf

theorem modify {f : Storage size Def → Storage size Def} (hf : ∀ s, Held s (f s)) :
    Always Held (modify f : StorageM size Def PUnit) :=
  Always.modify hf

theorem onBtree {α : Type} (x : BtreeM size α) :
    Always (@Held size Def) (Storage.onBtree x) := by
  intro s
  unfold Storage.onBtree
  cases x s.btree <;> exact ⟨rfl, rfl, rfl⟩

theorem failWith (e : Option Failure) :
    Always (@Held size Def) (Storage.failWith e) := by
  cases e with
  | none => exact Always.pure refl ()
  | some e => exact Always.throw refl e

end Held

theorem isolationStart_held : Always (@Held size Def) isolationStart := by
  refine Always.get_bind fun s => ?_
  cases s.transactionState with
  | active => exact Held.refl s
  | notActive =>
      refine Always.ite (R := Held) ?_ (.ite ?_ ?_) s
      · exact Held.modify fun s => ⟨rfl, rfl, rfl⟩
      · exact Held.modify fun s => ⟨rfl, rfl, rfl⟩
      · refine Held.bind (Held.modify fun s => ⟨rfl, rfl, rfl⟩) fun _ => ?_
        refine Held.bind (.ofExcept Held.refl _) fun ids => ?_
        exact Held.modify fun s => ⟨rfl, rfl, rfl⟩

theorem isolationEnd_held (fault : Option Failure) :
    Always (@Held size Def) (isolationEnd fault) := by
  refine Held.bind (Held.modify fun s => ?_) fun _ => ?_
  · unfold leaveIsolation
    split <;> exact ⟨rfl, rfl, rfl⟩
  refine Held.bind (Held.failWith fault) fun _ => ?_
  refine Held.bind (Held.modify fun s => ⟨rfl, rfl, rfl⟩) fun _ => Always.get_bind fun s => ?_
  split
  · exact Held.refl s
  · refine Held.bind (Held.onBtree _) (fun _ => ?_) s
    exact Held.modify fun s => ⟨rfl, rfl, rfl⟩

theorem endIsolation_held (fault : Option Failure) (s : Storage size Def) :
    Held s (endIsolation fault s) := by
  have h := isolationEnd_held fault s
  unfold endIsolation
  cases hrun : isolationEnd fault s with
  | ok a t =>
      rw [hrun] at h
      exact h
  | error e t =>
      rw [hrun] at h
      exact ⟨h.medium, h.committed, h.snapshot⟩

theorem isolated_held {fault : Option Failure} {body : StorageM size Def Unit}
    (hbody : Always Held body) : Always Held (isolated fault body) := by
  refine Held.bind isolationStart_held fun _ s => ?_
  have h := hbody s
  cases hrun : body s with
  | ok a t =>
      rw [hrun] at h
      exact Held.trans s t _ h (endIsolation_held fault t)
  | error e t =>
      rw [hrun] at h
      exact Held.trans s t _ h (endIsolation_held fault t)

theorem loadSchema_held (parser : SchemaParser Def) (fault : OpenFault) :
    Always (@Held size Def) (loadSchema parser fault) := by
  refine isolated_held ((loadDefinitions_loads parser fault).mono fun s t h => ?_)
  obtain ⟨_, _, _, rfl⟩ := h
  exact ⟨rfl, rfl, rfl⟩

theorem startTransaction_held : Always (@Held size Def) startTransaction := by
  refine Held.bind isolationStart_held fun _ => ?_
  refine Held.bind (Held.modify fun s => ⟨rfl, rfl, rfl⟩) fun _ => .get_bind fun s => ?_
  split
  · exact Held.refl s
  · exact Held.refl s

theorem endTransaction_held (fault : Option Failure) :
    Always (@Held size Def) (endTransaction fault) := by
  refine Held.bind (Held.modify fun s => ⟨rfl, rfl, rfl⟩) fun _ => ?_
  refine Held.bind (isolationEnd_held fault) fun _ => ?_
  exact Held.modify fun s => ⟨rfl, rfl, rfl⟩

theorem commitTransaction_held (fault : Option Failure) :
    Always (@Held size Def) (commitTransaction fault) := by
  refine Always.get_bind fun s => Held.bind (Held.onBtree _) (fun _ => ?_) s
  refine Held.bind (endTransaction_held fault) fun _ => Always.ite ?_ ?_
  · exact Held.modify fun s => ⟨rfl, rfl, rfl⟩
  · exact Always.pure Held.refl ()

theorem rollbackTransaction_held (parser : SchemaParser Def) (fault : Option Failure)
    (loadFault : OpenFault) :
    Always (@Held size Def) (rollbackTransaction parser fault loadFault) := by
  refine Always.get_bind fun s => Held.bind (Held.onBtree _) (fun _ => ?_) s
  refine Held.bind (endTransaction_held fault) fun _ => Always.ite ?_ ?_
  · refine Held.bind (Held.modify fun s => ⟨rfl, rfl, rfl⟩) fun _ => ?_
    exact loadSchema_held parser loadFault
  · exact Always.pure Held.refl ()

end Storage

theorem Op.run_held (o : Op Def) : Always (@Storage.Held size Def) o.run := by
  have htree : ∀ {α : Type} (x : Storage size Def → BtreeM size α),
      Always Storage.Held (do
        let s ← get
        discard (Storage.onBtree (x s) : StorageM size Def α)) := by
    intro α x
    refine Always.get_bind fun s => Storage.Held.bind (Storage.Held.onBtree (x s)) ?_ s
    exact fun _ => Always.pure Storage.Held.refl _
  cases o with
  | add key value => exact htree _
  | update key value => exact htree _
  | expire key tid => exact htree _
  | nextValue obj value =>
      refine Storage.Held.bind (Storage.Held.onBtree _) fun _ => ?_
      exact Storage.Held.modify fun s => ⟨rfl, rfl, rfl⟩
  | count counter => exact Storage.Held.modify fun s => ⟨rfl, rfl, rfl⟩
  | writeVersion version => exact Storage.Held.modify fun s => ⟨rfl, rfl, rfl⟩
  | schemaChanged => exact Storage.Held.modify fun s => ⟨rfl, rfl, rfl⟩
  | tables f => exact Storage.Held.modify fun s => ⟨rfl, rfl, rfl⟩
  | schemas f => exact Storage.Held.modify fun s => ⟨rfl, rfl, rfl⟩
  | indexes f => exact Storage.Held.modify fun s => ⟨rfl, rfl, rfl⟩

theorem Actions.run_held {O : Type} {runOp : O → StorageM size Def Unit}
    (hop : ∀ o, Always Storage.Held (runOp o)) (b : Actions O) :
    Always Storage.Held (b.run runOp) := by
  induction b with
  | done => exact Always.pure Storage.Held.refl ()
  | fail e => exact Always.throw Storage.Held.refl e
  | op o next ih => exact Storage.Held.bind (hop o) fun _ => ih
  | isolation fault body next ihBody ihNext =>
      exact Storage.Held.bind (Storage.isolated_held ihBody) fun _ => ihNext

theorem Work.run_held (w : Work Def) : Always (@Storage.Held size Def) w.run := by
  induction w with
  | done => exact Always.pure Storage.Held.refl ()
  | fail e => exact Always.throw Storage.Held.refl e
  | deferCheck key table next ih =>
      exact Storage.Held.bind (Storage.Held.modify fun s => ⟨rfl, rfl, rfl⟩) fun _ => ih
  | isolation fault body next ih =>
      exact Storage.Held.bind
        (Storage.isolated_held (Actions.run_held Op.run_held body)) fun _ => ih

theorem Statement.body_held (parser : SchemaParser Def) (faults : Faults)
    (stmt : Statement Def) : Always (@Storage.Held size Def) (stmt.body parser faults) := by
  cases stmt with
  | read body => exact Actions.run_held (fun o => o.elim) body
  | change body => exact body.run_held
  | startTransaction => exact Storage.startTransaction_held
  | commit checks =>
      exact Storage.Held.bind checks.run_held fun _ => Storage.commitTransaction_held _
  | rollback => exact Storage.rollbackTransaction_held parser _ _

def Statement.Reads : Statement Def → Prop
  | .read _ => True
  | _ => False

namespace Storage

/-! ## Discarding -/

/-- The values of sequences that are kept when the statement is discarded. -/
def issuedValues (s : Storage size Def) : List PageObject :=
  s.sequenceValues.entries.map Prod.snd

/-- The state after a statement that was discarded. -/
structure Discards (s t : Storage size Def) : Prop where
  medium : t.medium = s.medium
  error : t.isolationError = s.isolationError
  state : t.transactionState = s.snapshot.transactionState
  id : t.transactionId = s.snapshot.transactionId
  depth : t.isolationDepth = s.snapshot.isolationDepth
  pages : t.transactionPages = s.snapshot.transactionPages
  committed : t.committed = s.committed ∨
    s.issuedValues ≠ [] ∧ ∃ b, replaceValues s.issuedValues s.putBack.btree = .ok () b ∧
      t.committed = ⟨{ s.snapshot.header with rootPage := b.rootPage }, b.pages⟩

theorem discardStatement_discards {s : Storage size Def} (hs : s.medium = .file)
    (log : LogResult) : Discards s (final (discardStatement log s)) := by
  have hdiscard : discardStatement log s = (if s.issuedValues ≠ [] then do
      onBtree (replaceValues s.issuedValues)
      commitStatement log
    else pure () : StorageM size Def Unit) s.putBack := rfl
  rw [hdiscard]
  split
  next hvalues =>
    have hrun : ∀ r, replaceValues s.issuedValues s.putBack.btree = r →
        final ((do onBtree (replaceValues s.issuedValues); commitStatement log) s.putBack) =
          match r with
          | .ok () b => final (commitStatement log { s.putBack with btree := b })
          | .error _ b => { s.putBack with btree := b } := by
      rintro r rfl
      simp only [bind, EStateM.bind, onBtree]
      cases replaceValues s.issuedValues s.putBack.btree <;> rfl
    cases hreplace : replaceValues s.issuedValues s.putBack.btree with
    | error e b =>
        rw [hrun _ hreplace]
        exact ⟨rfl, rfl, rfl, rfl, rfl, rfl, .inl rfl⟩
    | ok a b =>
        rw [hrun _ hreplace]
        have hmedium : s.putBack.medium = .file := hs
        simp only [commitStatement, hmedium]
        cases log with
        | written => exact ⟨hs.symm, rfl, rfl, rfl, rfl, rfl, .inr ⟨hvalues, b, hreplace, rfl⟩⟩
        | failed e => exact ⟨hs.symm, rfl, rfl, rfl, rfl, rfl, .inl rfl⟩
        | writtenAndFailed e =>
            exact ⟨hs.symm, rfl, rfl, rfl, rfl, rfl, .inr ⟨hvalues, b, hreplace, rfl⟩⟩
  next => exact ⟨rfl, rfl, rfl, rfl, rfl, rfl, .inl rfl⟩

/-! ## The end of a statement -/

/-- An error from the log means that it does not have the statement. -/
def LogResult.Truthful : LogResult → Prop
  | .writtenAndFailed _ => False
  | _ => True

theorem attempt_ok {body : StorageM size Def Unit} {s t : Storage size Def}
    (h : attempt body s = (t, none)) : body s = .ok () t ∧ t.isolationError = none := by
  unfold attempt at h
  cases hrun : (do body; takeIsolationError) s with
  | error e u =>
      rw [hrun] at h
      cases h
  | ok a u =>
      rw [hrun] at h
      cases h
      obtain ⟨_, v, hbody, htake⟩ := bind_eq_ok.mp hrun
      obtain ⟨w, x, hget, htake⟩ := bind_eq_ok.mp htake
      obtain ⟨rfl, rfl⟩ := get_eq_ok.mp hget
      cases herror : v.isolationError with
      | none =>
          simp only [herror] at htake
          obtain ⟨-, rfl⟩ := pure_eq_ok.mp htake
          exact ⟨hbody, herror⟩
      | some e =>
          simp only [herror] at htake
          cases htake

theorem takeIsolationError_held : Always (@Held size Def) takeIsolationError := by
  refine Always.get_bind fun s => ?_
  cases s.isolationError with
  | none => exact Held.refl s
  | some e => exact ⟨rfl, rfl, rfl⟩

/-- No error is kept for the next statement. -/
theorem attempt_fst (body : StorageM size Def Unit) (s : Storage size Def) :
    (attempt body s).1 =
      (final ((do body; takeIsolationError) s)).forgetIsolationError := by
  cases hattempt : attempt body s with
  | mk t e =>
      have hrun := hattempt
      unfold attempt at hrun
      cases hresult : (do body; takeIsolationError) s with
      | error e' u =>
          rw [hresult] at hrun
          cases hrun
          rfl
      | ok a u =>
          rw [hresult] at hrun
          cases hrun
          have herror := (attempt_ok hattempt).2
          show t = { t with isolationError := none }
          rw [← herror]

theorem attempt_held {body : StorageM size Def Unit} (hbody : Always Held body)
    (s : Storage size Def) : Held s (attempt body s).1 := by
  rw [attempt_fst]
  have h := Held.bind hbody (fun _ => takeIsolationError_held) s
  exact ⟨h.medium, h.committed, h.snapshot⟩

theorem attempt_isolationError (body : StorageM size Def Unit) (s : Storage size Def) :
    (attempt body s).1.isolationError = none := by
  rw [attempt_fst]
  rfl

theorem commitStatement_ok {log : LogResult} {s t : Storage size Def}
    (h : commitStatement log s = .ok () t) (hs : s.medium = .file) :
    { s with
      header := { s.header with rootPage := s.btree.rootPage }
      committed := ⟨{ s.header with rootPage := s.btree.rootPage }, s.btree.pages⟩ } = t := by
  simp only [commitStatement, hs] at h
  cases log with
  | written =>
      cases h
      rw [← hs]
  | failed e => cases h
  | writtenAndFailed e => cases h

theorem finish_ok {faults : Faults} {body : StorageM size Def Unit}
    {s t : Storage size Def} (h : finish faults body s = (t, none)) :
    ∃ u, body s = .ok () u ∧ u.isolationError = none ∧
      commitStatement faults.log u = .ok () t := by
  unfold finish at h
  cases hattempt : attempt body s with
  | mk u e =>
      cases e with
      | none =>
          obtain ⟨hbody, herror⟩ := attempt_ok hattempt
          refine ⟨u, hbody, herror, ?_⟩
          simp only [hattempt, finishWrite, if_true] at h
          cases hcommit : commitStatement faults.log u with
          | ok a v =>
              simp only [hcommit] at h
              cases h
              rfl
          | error e v =>
              simp only [hcommit] at h
              cases hdiscard : discardStatement faults.discardLog v <;>
                simp only [hdiscard] at h <;> cases h
      | some e =>
          simp only [hattempt, finishWrite] at h
          cases hdiscard : discardStatement faults.discardLog u <;>
            simp only [hdiscard, Bool.false_eq_true, if_false] at h <;> cases h

theorem finish_failed {faults : Faults} {body : StorageM size Def Unit}
    {s t : Storage size Def} {e : Failure} (h : finish faults body s = (t, some e))
    (hbody : Always Held body) (hs : s.medium = .file) (hlog : faults.log.Truthful) :
    Discards (attempt body s).1 t := by
  unfold finish at h
  have hheld := attempt_held hbody s
  cases hattempt : attempt body s with
  | mk u e' =>
      rw [hattempt] at hheld
      have hfile : u.medium = .file := hheld.medium.trans hs
      cases e' with
      | none =>
          simp only [hattempt, finishWrite, if_true] at h
          cases hcommit : commitStatement faults.log u with
          | ok a v =>
              simp only [hcommit] at h
              cases h
          | error e'' v =>
              have hv : v = { u with
                  header := { u.header with rootPage := u.btree.rootPage } } := by
                simp only [commitStatement, hfile] at hcommit
                cases hresult : faults.log <;> simp only [hresult] at hcommit hlog
                · cases hcommit
                · cases hcommit
                  rw [← hfile]
                · exact hlog.elim
              have hdiscards := discardStatement_discards (s := v)
                (by rw [hv]; exact hfile) faults.discardLog
              have ht : final (discardStatement faults.discardLog v) = t := by
                simp only [hcommit] at h
                cases hdiscard : discardStatement faults.discardLog v <;>
                  simp only [hdiscard] at h <;> cases h <;> rfl
              rw [ht, hv] at hdiscards
              obtain ⟨hmedium, herror, hstate, hid, hdepth, hpages, hcommitted⟩ := hdiscards
              exact ⟨hmedium, herror, hstate, hid, hdepth, hpages, hcommitted⟩
      | some e'' =>
          have ht : final (discardStatement faults.discardLog u) = t := by
            simp only [hattempt, finishWrite] at h
            cases hdiscard : discardStatement faults.discardLog u <;>
              simp only [hdiscard, Bool.false_eq_true, if_false] at h <;> cases h <;> rfl
          rw [← ht]
          exact discardStatement_discards hfile faults.discardLog

/-! ## Whole statements -/

theorem takeIsolationError_undisturbed :
    Always (@Undisturbed size Def) takeIsolationError := by
  refine Always.get_bind fun s => ?_
  cases s.isolationError with
  | none => exact Undisturbed.refl s
  | some e =>
      exact ⟨rfl, rfl, rfl, fun _ => rfl,
        fun h => ⟨⟨h.written, h.depth, h.pages⟩, rfl, fun _ => .rfl⟩⟩

theorem withReadConnection_keeps (parser : SchemaParser Def) (faults : Faults)
    (body : Actions Empty) {s : Storage size Def} (hs : s.Parked) :
    s.Keeps (withReadConnection parser faults (body.run Empty.elim) s).1 ∧
      (withReadConnection parser faults (body.run Empty.elim) s).1.committed =
        s.committed := by
  have h := openStorage_bind_keeps parser false false faults.opening
    (Undisturbed.bind (Actions.run_undisturbed body)
      fun _ => takeIsolationError_undisturbed) hs
  rw [← bind_assoc] at h
  unfold withReadConnection
  rw [attempt_fst]
  obtain ⟨⟨hmedium, hstate, hid, hdepth, hpages⟩, hcommitted⟩ := h
  exact ⟨⟨hmedium, hstate, hid, hdepth, hpages⟩, hcommitted⟩

/-- What a statement that writes did when it succeeded. -/
structure Wrote (parser : SchemaParser Def) (alone : Bool) (faults : Faults)
    (stmt : Statement Def) (s t : Storage size Def) : Prop where
  accepted : stmt.refusal s.transactionState = none
  run : ∃ u v, openStorage parser true alone faults.opening s = .ok () u ∧
    stmt.body parser faults u.beginStatement = .ok () v ∧ v.isolationError = none ∧
      commitStatement faults.log v = .ok () t

/-- The values of sequences were written after the statement had failed. -/
def Replays (parser : SchemaParser Def) (alone : Bool) (faults : Faults)
    (stmt : Statement Def) (s t : Storage size Def) : Prop :=
  ∃ u v b, openStorage parser true alone faults.opening s = .ok () u ∧
    (attempt (stmt.body parser faults) u.beginStatement).1 = v ∧
    v.issuedValues ≠ [] ∧ replaceValues v.issuedValues v.putBack.btree = .ok () b ∧
    t.committed = ⟨{ u.header with rootPage := b.rootPage }, b.pages⟩

theorem Keeps.refl (s : Storage size Def) : s.Keeps s :=
  ⟨rfl, rfl, fun _ => rfl, rfl, fun _ => .rfl⟩

theorem Keeps.trans {s t u : Storage size Def} (first : s.Keeps t) (second : t.Keeps u) :
    s.Keeps u where
  medium := second.medium.trans first.medium
  state := second.state.trans first.state
  id h := (second.id (first.state.trans h)).trans (first.id h)
  depth := second.depth.trans first.depth
  pages n := (second.pages n).trans (first.pages n)

theorem execute_ok {parser : SchemaParser Def} {alone : Bool} {faults : Faults}
    {stmt : Statement Def} {s t : Storage size Def}
    (h : execute parser alone faults stmt s = (t, none)) (hs : s.Parked) :
    stmt.Reads ∧ s.Keeps t ∧ t.committed = s.committed ∧ t.isolationError = none ∨
      ¬ stmt.Reads ∧ Wrote parser alone faults stmt s t := by
  unfold execute at h
  cases hrefusal : stmt.refusal s.transactionState with
  | some e =>
      simp only [hrefusal] at h
      cases h
  | none =>
      have hwrite : withWriteConnection parser alone faults (stmt.body parser faults) s =
          (t, none) → Wrote parser alone faults stmt s t := by
        intro h
        refine ⟨hrefusal, ?_⟩
        unfold withWriteConnection at h
        cases hopen : openStorage parser true alone faults.opening s with
        | error e u =>
            simp only [hopen] at h
            cases h
        | ok a u =>
            simp only [hopen] at h
            split at h
            · obtain ⟨v, hbody, herror, hcommit⟩ := finish_ok h
              exact ⟨u, v, rfl, hbody, herror, hcommit⟩
            · cases h
      simp only [hrefusal] at h
      cases stmt with
      | read body =>
          obtain ⟨hkeeps, hcommitted⟩ := withReadConnection_keeps parser faults body hs
          have herror := attempt_isolationError (do
            openStorage parser false false faults.opening
            body.run Empty.elim : StorageM size Def Unit) s
          have ht : t = (withReadConnection parser faults (body.run Empty.elim) s).1 :=
            (congrArg Prod.fst h).symm
          subst ht
          exact .inl ⟨trivial, hkeeps, hcommitted, herror⟩
      | change body => exact .inr ⟨id, hwrite h⟩
      | startTransaction => exact .inr ⟨id, hwrite h⟩
      | commit checks => exact .inr ⟨id, hwrite h⟩
      | rollback => exact .inr ⟨id, hwrite h⟩

theorem execute_failed {parser : SchemaParser Def} {alone : Bool} {faults : Faults}
    {stmt : Statement Def} {s t : Storage size Def} {e : Failure}
    (h : execute parser alone faults stmt s = (t, some e)) (hs : s.Parked)
    (hmedium : s.medium = .file) (herror : s.isolationError = none)
    (hlog : faults.log.Truthful) :
    s.Keeps t ∧ t.isolationError = none ∧
      (t.committed = s.committed ∨ Replays parser alone faults stmt s t) := by
  unfold execute at h
  cases hrefusal : stmt.refusal s.transactionState with
  | some e =>
      simp only [hrefusal] at h
      cases h
      exact ⟨.refl s, herror, .inl rfl⟩
  | none =>
      have hwrite : withWriteConnection parser alone faults (stmt.body parser faults) s =
          (t, some e) → s.Keeps t ∧ t.isolationError = none ∧
            (t.committed = s.committed ∨ Replays parser alone faults stmt s t) := by
        intro h
        obtain ⟨hkeeps, hcommitted⟩ :=
          openStorage_keeps parser true alone faults.opening hs
        have hforget : ∀ u : Storage size Def, s.Keeps u → s.Keeps u.forgetIsolationError :=
          fun u ⟨hmedium, hstate, hid, hdepth, hpages⟩ =>
            ⟨hmedium, hstate, hid, hdepth, hpages⟩
        unfold withWriteConnection at h
        cases hopen : openStorage parser true alone faults.opening s with
        | error e u =>
            rw [hopen] at h hkeeps hcommitted
            cases h
            exact ⟨hforget u hkeeps, rfl, .inl hcommitted⟩
        | ok a u =>
            rw [hopen] at hkeeps hcommitted
            simp only [hopen] at h
            split at h
            · have hbody : Always (@Held size Def) (stmt.body parser faults) :=
                stmt.body_held parser faults
              have hheld := attempt_held hbody u.beginStatement
              have hdiscards := finish_failed h hbody (hkeeps.medium.trans hmedium) hlog
              have hnone := attempt_isolationError (stmt.body parser faults)
                u.beginStatement
              set v := (attempt (stmt.body parser faults) u.beginStatement).1 with hv
              obtain ⟨htmedium, hterror, hstate, hid, hdepth, hpages, htcommitted⟩ :=
                hdiscards
              rw [hheld.snapshot] at hstate hid hdepth hpages htcommitted
              have hut : u.Keeps t := by
                refine ⟨htmedium.trans hheld.medium, hstate, fun _ => hid, hdepth,
                  fun n => ?_⟩
                rw [hpages]
                exact .rfl
              refine ⟨hkeeps.trans hut, hterror.trans hnone, ?_⟩
              rcases htcommitted with hsame | ⟨hvalues, b, hreplace, hwritten⟩
              · exact .inl (hsame.trans (hheld.committed.trans hcommitted))
              · exact .inr ⟨u, v, b, hopen, rfl, hvalues, hreplace, hwritten⟩
            · cases h
              exact ⟨hforget u hkeeps, rfl, .inl hcommitted⟩
      simp only [hrefusal] at h
      cases stmt with
      | read body =>
          obtain ⟨hkeeps, hcommitted⟩ := withReadConnection_keeps parser faults body hs
          have hnone := attempt_isolationError (do
            openStorage parser false false faults.opening
            body.run Empty.elim : StorageM size Def Unit) s
          have ht : t = (withReadConnection parser faults (body.run Empty.elim) s).1 :=
            (congrArg Prod.fst h).symm
          subst ht
          exact ⟨hkeeps, hnone, .inl hcommitted⟩
      | change body => exact hwrite h
      | startTransaction => exact hwrite h
      | commit checks => exact hwrite h
      | rollback => exact hwrite h

end Storage
end Vsql
