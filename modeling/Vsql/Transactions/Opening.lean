import Vsql.Transactions.Implicit

/-!
# Opening a database

Opening reads the header and perhaps the schema.  If the connection is the only
one, it also recovers from the transactions of connections that no longer
exist.  What a connection keeps of its own transaction is not affected, even if
the database cannot be opened.
-/

namespace Vsql.Storage

open Foundation StateError

variable {size : PageSize} {Def : Type}

/-! ## The transaction of the connection -/

/-- Nothing has been written, and there is a transaction if pages are
remembered. -/
structure Quiet (s : Storage size Def) : Prop where
  written : s.btree.writtenPages = []
  depth : 0 ≤ s.isolationDepth
  pages : s.transactionState = .notActive → s.transactionPages = []

/-- What reading leaves as it is. -/
structure Undisturbed (s t : Storage size Def) : Prop where
  medium : t.medium = s.medium
  committed : t.committed = s.committed
  state : t.transactionState = s.transactionState
  id : s.transactionState = .active → t.transactionId = s.transactionId
  quiet : s.Quiet → t.Quiet ∧ t.isolationDepth = s.isolationDepth ∧
    ∀ n, n ∈ t.transactionPages ↔ n ∈ s.transactionPages

namespace Undisturbed

theorem refl (s : Storage size Def) : Undisturbed s s :=
  ⟨rfl, rfl, rfl, fun _ => rfl, fun h => ⟨h, rfl, fun _ => .rfl⟩⟩

theorem trans (s t u : Storage size Def) (first : Undisturbed s t)
    (second : Undisturbed t u) : Undisturbed s u where
  medium := second.medium.trans first.medium
  committed := second.committed.trans first.committed
  state := second.state.trans first.state
  id h := (second.id (first.state.trans h)).trans (first.id h)
  quiet h := by
    obtain ⟨hquiet, hdepth, hpages⟩ := first.quiet h
    obtain ⟨hquiet', hdepth', hpages'⟩ := second.quiet hquiet
    exact ⟨hquiet', hdepth'.trans hdepth, fun n => (hpages' n).trans (hpages n)⟩

theorem bind {α β : Type} {x : StorageM size Def α} {f : α → StorageM size Def β}
    (hx : Always Undisturbed x) (hf : ∀ a, Always Undisturbed (f a)) :
    Always Undisturbed (x >>= f) :=
  Always.bind trans hx hf

theorem failWith (e : Option Failure) :
    Always (@Undisturbed size Def) (Storage.failWith e) := by
  cases e with
  | none => exact Always.pure refl ()
  | some e => exact Always.throw refl e

end Undisturbed

/-- The transaction of a storage, apart from its pages and depth. -/
structure SameTransaction (s t : Storage size Def) : Prop where
  medium : t.medium = s.medium
  committed : t.committed = s.committed
  state : t.transactionState = s.transactionState
  id : t.transactionId = s.transactionId

private theorem isolationEnd_same (fault : Option Failure) :
    Always (@SameTransaction size Def) (isolationEnd fault) := by
  have hrefl : ∀ s : Storage size Def, SameTransaction s s :=
    fun s => ⟨rfl, rfl, rfl, rfl⟩
  have htrans : ∀ s t u : Storage size Def, SameTransaction s t →
      SameTransaction t u → SameTransaction s u := by
    intro s t u first second
    exact ⟨second.medium.trans first.medium, second.committed.trans first.committed,
      second.state.trans first.state, second.id.trans first.id⟩
  refine Always.bind htrans (Always.modify fun s => ?_) fun _ =>
    Always.bind htrans ?_ fun _ => Always.bind htrans
      (Always.modify (f := keepWrittenPages) fun s => ⟨rfl, rfl, rfl, rfl⟩) fun _ =>
        Always.get_bind fun s => ?_
  · unfold leaveIsolation
    split <;> exact ⟨rfl, rfl, rfl, rfl⟩
  · cases fault with
    | none => exact Always.pure hrefl ()
    | some e => exact Always.throw hrefl e
  · split
    · exact hrefl s
    · have honBtree : ∀ x : BtreeM size Unit,
          Always (@SameTransaction size Def) (onBtree x) := by
        intro x s
        unfold onBtree
        cases x s.btree <;> exact ⟨rfl, rfl, rfl, rfl⟩
      exact Always.bind htrans (honBtree _)
        (fun _ => Always.modify (f := endTransactionId)
          fun s => ⟨rfl, rfl, rfl, rfl⟩) s

theorem endIsolation_same (fault : Option Failure) (s : Storage size Def) :
    SameTransaction s (endIsolation fault s) := by
  have h := isolationEnd_same fault s
  unfold endIsolation
  cases hrun : isolationEnd fault s with
  | ok a t =>
      rw [hrun] at h
      exact h
  | error e t =>
      rw [hrun] at h
      exact ⟨h.medium, h.committed, h.state, h.id⟩

theorem isolationEnd_none (s : Storage size Def) :
    isolationEnd none s =
      (if s.leftIsolation.transactionState = TransactionState.active ∨
          s.leftIsolation.isolationDepth > 0 ∨ s.leftIsolation.readOnly then pure ()
        else do
          onBtree (removeExpiredObjects s.leftIsolation.transactionId
            s.leftIsolation.transactionPages)
          modify endTransactionId : StorageM size Def Unit) s.leftIsolation := rfl

/-- The end of a block in which nothing was written. -/
theorem endIsolation_quiet {fault : Option Failure} {s : Storage size Def}
    (hs : s.Quiet) (hdepth : s.transactionState = .notActive → 1 ≤ s.isolationDepth) :
    (endIsolation fault s).Quiet ∧
      (endIsolation fault s).isolationDepth = (leaveIsolation s).isolationDepth ∧
      ∀ n, n ∈ (endIsolation fault s).transactionPages ↔ n ∈ s.transactionPages := by
  obtain ⟨hwritten, hpositive, hpages⟩ := hs
  have hunion : ∀ n, n ∈ s.transactionPages ∪ s.btree.writtenPages ↔
      n ∈ s.transactionPages := by simp [hwritten]
  have hunionNil : s.transactionState = .notActive →
      s.transactionPages ∪ s.btree.writtenPages = [] := by
    intro h
    rw [hpages h, hwritten]
    rfl
  have hleave : (leaveIsolation s).transactionPages = s.transactionPages ∧
      (leaveIsolation s).btree = s.btree ∧
      (leaveIsolation s).transactionState = s.transactionState ∧
      0 ≤ (leaveIsolation s).isolationDepth := by
    unfold leaveIsolation
    split
    next h => exact ⟨rfl, rfl, rfl, by have := hdepth h; simp only; omega⟩
    next => exact ⟨rfl, rfl, rfl, hpositive⟩
  obtain ⟨hlpages, hlbtree, hlstate, hldepth⟩ := hleave
  have hleft : s.leftIsolation.transactionPages =
        s.transactionPages ∪ s.btree.writtenPages ∧
      s.leftIsolation.btree = { s.btree with writtenPages := [] } ∧
      s.leftIsolation.transactionState = s.transactionState ∧
      s.leftIsolation.isolationDepth = (leaveIsolation s).isolationDepth := by
    simp [leftIsolation, keepWrittenPages, hlpages, hlbtree, hlstate]
  obtain ⟨hpages', hbtree', hstate', hdepth'⟩ := hleft
  cases fault with
  | some e =>
      refine ⟨⟨?_, hldepth, fun h => ?_⟩, rfl, fun n => ?_⟩
      · exact (congrArg Btree.writtenPages hlbtree).trans hwritten
      · exact hlpages.trans (hpages (hlstate.symm.trans h))
      · exact iff_of_eq (congrArg (n ∈ ·) hlpages)
  | none =>
      unfold endIsolation
      rw [isolationEnd_none]
      by_cases hcontinues : s.leftIsolation.transactionState = .active ∨
          s.leftIsolation.isolationDepth > 0 ∨ s.leftIsolation.readOnly
      · rw [if_pos hcontinues]
        refine ⟨⟨?_, ?_, fun h => ?_⟩, hdepth', fun n => ?_⟩
        · exact congrArg Btree.writtenPages hbtree'
        · exact hldepth.trans_eq hdepth'.symm
        · exact hpages'.trans (hunionNil (hstate'.symm.trans h))
        · show n ∈ s.leftIsolation.transactionPages ↔ _
          rw [hpages', hunion]
      · rw [if_neg hcontinues]
        have hnot : s.transactionState = .notActive := by
          cases h : s.transactionState with
          | notActive => rfl
          | active => exact absurd (.inl (hstate'.trans h)) hcontinues
        have hnil : s.leftIsolation.transactionPages = [] := hpages'.trans (hunionNil hnot)
        have hrun : (do
            onBtree (removeExpiredObjects s.leftIsolation.transactionId
              s.leftIsolation.transactionPages)
            modify endTransactionId : StorageM size Def Unit) s.leftIsolation =
              .ok () (endTransactionId s.leftIsolation) := by
          rw [hnil]
          rfl
        rw [hrun]
        refine ⟨⟨?_, ?_, fun _ => rfl⟩, hdepth', fun n => ?_⟩
        · exact congrArg Btree.writtenPages hbtree'
        · exact hldepth.trans_eq hdepth'.symm
        · simp [endTransactionId, hpages hnot]

/-! ## Blocks that only read -/

/-- What the start of a block does before its body runs. -/
structure Entered (s t : Storage size Def) : Prop where
  medium : t.medium = s.medium
  committed : t.committed = s.committed
  state : t.transactionState = s.transactionState
  id : s.transactionState = .active → t.transactionId = s.transactionId
  written : t.btree.writtenPages = s.btree.writtenPages
  pages : t.transactionPages = s.transactionPages
  depth : 0 ≤ s.isolationDepth → t.isolationDepth =
    if s.transactionState = .notActive then s.isolationDepth + 1 else s.isolationDepth

theorem isolationStart_entered {s t : Storage size Def}
    (h : isolationStart s = .ok () t) : Entered s t := by
  obtain ⟨u, v, hget, hnext⟩ := bind_eq_ok.mp h
  obtain ⟨rfl, rfl⟩ := get_eq_ok.mp hget
  cases hstate : s.transactionState with
  | active =>
      simp only [hstate, pure_eq_ok] at hnext
      obtain ⟨-, rfl⟩ := hnext
      exact ⟨rfl, rfl, rfl, fun _ => rfl, rfl, rfl, fun _ => by simp [hstate]⟩
  | notActive =>
      have hnotActive : ¬ s.transactionState = .active := by simp [hstate]
      simp only [hstate] at hnext
      split at hnext
      · obtain rfl := modify_eq_ok.mp hnext
        exact ⟨rfl, rfl, rfl, fun _ => rfl, rfl, rfl, fun _ => by simp [hstate]⟩
      next hdepth =>
        have hzero : 0 ≤ s.isolationDepth → s.isolationDepth = 0 := by omega
        split at hnext
        · obtain rfl := modify_eq_ok.mp hnext
          exact ⟨rfl, rfl, rfl, fun h => absurd h hnotActive, rfl, rfl,
            fun h => by simp [hstate, hzero h]⟩
        · obtain ⟨_, u, hid, hnext⟩ := bind_eq_ok.mp hnext
          obtain rfl := modify_eq_ok.mp hid
          obtain ⟨ids, v, hrun, hlast⟩ := bind_eq_ok.mp hnext
          obtain ⟨-, rfl⟩ := ofExcept_eq_ok.mp hrun
          obtain rfl := modify_eq_ok.mp hlast
          exact ⟨rfl, rfl, rfl, fun h => absurd h hnotActive, rfl, rfl,
            fun h => by simp [hstate, hzero h]⟩

/-- A block cannot start if there is no place for its id. -/
theorem isolationStart_fails {s t : Storage size Def} {e : Failure}
    (h : isolationStart s = .error e t) :
    s.transactionState = .notActive ∧ { s with
      header := { s.header with transactionId := s.header.transactionId + 1 }
      transactionId := s.header.transactionId + 1 } = t := by
  rcases bind_eq_error.mp h with hget | ⟨u, v, hget, hnext⟩
  · cases hget
  obtain ⟨rfl, rfl⟩ := get_eq_ok.mp hget
  cases hstate : s.transactionState with
  | active =>
      simp only [hstate] at hnext
      cases hnext
  | notActive =>
      simp only [hstate] at hnext
      split at hnext
      · cases hnext
      · split at hnext
        · cases hnext
        · rcases bind_eq_error.mp hnext with hid | ⟨_, u, hid, hnext⟩
          · cases hid
          obtain rfl := modify_eq_ok.mp hid
          rcases bind_eq_error.mp hnext with hrun | ⟨ids, v, -, hlast⟩
          · obtain ⟨-, rfl⟩ := ofExcept_eq_error.mp hrun
            exact ⟨rfl, by rw [← hstate]⟩
          · cases hlast

theorem final_isolated {fault : Option Failure} {body : StorageM size Def Unit}
    {s u : Storage size Def} (h : isolationStart s = .ok () u) :
    final (isolated fault body s) = endIsolation fault (final (body u)) := by
  simp only [isolated, bind, EStateM.bind, h]
  cases body u <;> rfl

theorem isolated_undisturbed {fault : Option Failure} {body : StorageM size Def Unit}
    (hbody : Always Undisturbed body) : Always Undisturbed (isolated fault body) := by
  intro s
  cases hstart : isolationStart s with
  | error e t =>
      have hrun : isolated fault body s = .error e t :=
        bind_eq_error.mpr (.inl hstart)
      rw [hrun]
      obtain ⟨hstate, rfl⟩ := isolationStart_fails hstart
      exact ⟨rfl, rfl, rfl, fun h => by simp [hstate] at h,
        fun h => ⟨⟨h.written, h.depth, h.pages⟩, rfl, fun _ => .rfl⟩⟩
  | ok a u =>
      have hentered := isolationStart_entered hstart
      have hinner := hbody u
      rw [final_isolated hstart]
      set v := final (body u)
      have hsame := endIsolation_same fault v
      refine ⟨?_, ?_, ?_, fun h => ?_, fun hquiet => ?_⟩
      · exact hsame.medium.trans (hinner.medium.trans hentered.medium)
      · exact hsame.committed.trans (hinner.committed.trans hentered.committed)
      · exact hsame.state.trans (hinner.state.trans hentered.state)
      · exact hsame.id.trans ((hinner.id (hentered.state.trans h)).trans (hentered.id h))
      · have hstate : v.transactionState = s.transactionState :=
          hinner.state.trans hentered.state
        have hdepth := hentered.depth hquiet.depth
        have hu : u.Quiet := by
          refine ⟨hentered.written.trans hquiet.written, ?_, fun h => ?_⟩
          · have := hquiet.depth
            split at hdepth <;> omega
          · rw [hentered.pages]
            exact hquiet.pages (hentered.state.symm.trans h)
        obtain ⟨hvquiet, hvdepth, hvpages⟩ := hinner.quiet hu
        have hvpositive : v.transactionState = .notActive → 1 ≤ v.isolationDepth := by
          intro h
          rw [if_pos (hstate.symm.trans h)] at hdepth
          have := hquiet.depth
          omega
        obtain ⟨hquiet', hdepth', hpages'⟩ :
            (endIsolation fault v).Quiet ∧ _ ∧ _ := endIsolation_quiet hvquiet hvpositive
        refine ⟨hquiet', ?_, fun n => ?_⟩
        · rw [hdepth', leaveIsolation, hstate]
          split
          next h =>
            rw [if_pos h] at hdepth
            show v.isolationDepth - 1 = s.isolationDepth
            omega
          next h =>
            rw [if_neg h] at hdepth
            exact hvdepth.trans hdepth
        · rw [hpages', hvpages, hentered.pages]

theorem Actions.run_undisturbed (b : Actions Empty) :
    Always (@Undisturbed size Def) (b.run Empty.elim) := by
  induction b with
  | done => exact Always.pure Undisturbed.refl ()
  | fail e => exact Always.throw Undisturbed.refl e
  | op o next ih => exact o.elim
  | isolation fault body next ihBody ihNext =>
      exact Undisturbed.bind (isolated_undisturbed ihBody) fun _ => ihNext

/-! ## Loading the schema -/

/-- Only the definitions are different. -/
def Loads (s t : Storage size Def) : Prop :=
  ∃ tables schemas indexes,
    { s with tables := tables, schemas := schemas, indexes := indexes } = t

namespace Loads

theorem refl (s : Storage size Def) : Loads s s := ⟨s.tables, s.schemas, s.indexes, rfl⟩

theorem trans (s t u : Storage size Def) (first : Loads s t) (second : Loads t u) :
    Loads s u := by
  obtain ⟨_, _, _, rfl⟩ := first
  obtain ⟨tables, schemas, indexes, rfl⟩ := second
  exact ⟨tables, schemas, indexes, rfl⟩

theorem bind {α β : Type} {x : StorageM size Def α} {f : α → StorageM size Def β}
    (hx : Always Loads x) (hf : ∀ a, Always Loads (f a)) : Always Loads (x >>= f) :=
  Always.bind trans hx hf

theorem modify {f : Storage size Def → Storage size Def} (hf : ∀ s, Loads s (f s)) :
    Always Loads (modify f : StorageM size Def PUnit) :=
  Always.modify hf

theorem failWith (e : Option Failure) :
    Always (@Loads size Def) (Storage.failWith e) := by
  cases e with
  | none => exact Always.pure refl ()
  | some e => exact Always.throw refl e

end Loads

theorem loadTables_loads (parser : SchemaParser Def) (objects : List PageObject) :
    Always (@Loads size Def) (loadTables parser objects) := by
  induction objects with
  | nil => exact Always.pure Loads.refl ()
  | cons o objects ih =>
      refine Loads.bind (.ofExcept Loads.refl _) fun _ => Loads.bind ?_ fun _ => ih
      exact Loads.modify fun s => ⟨_, _, _, rfl⟩

theorem loadSchemas_loads (parser : SchemaParser Def) (objects : List PageObject) :
    Always (@Loads size Def) (loadSchemas parser objects) := by
  induction objects with
  | nil => exact Always.pure Loads.refl ()
  | cons o objects ih =>
      refine Loads.bind (.ofExcept Loads.refl _) fun _ => Loads.bind ?_ fun _ => ih
      exact Loads.modify fun s => ⟨_, _, _, rfl⟩

theorem loadIndexes_loads (parser : SchemaParser Def) (objects : List PageObject) :
    Always (@Loads size Def) (loadIndexes parser objects) := by
  induction objects with
  | nil => exact Always.pure Loads.refl ()
  | cons o objects ih =>
      refine Always.get_bind fun s => Loads.bind (.ofExcept Loads.refl _) (fun found => ?_) s
      cases found with
      | none => exact ih
      | some found => exact Loads.bind (Loads.modify fun s => ⟨_, _, _, rfl⟩) fun _ => ih

theorem loadDefinitions_loads (parser : SchemaParser Def) (fault : OpenFault) :
    Always (@Loads size Def) (loadDefinitions parser fault) := by
  have hclear : ∀ f : Storage size Def → Storage size Def, (∀ s, Loads s (f s)) →
      Always Loads (modify f : StorageM size Def PUnit) := fun f hf => Loads.modify hf
  refine Loads.bind (hclear _ fun s => ⟨_, _, _, rfl⟩) fun _ => Always.get_bind fun s => ?_
  refine Loads.bind (loadTables_loads parser _) (fun _ => ?_) s
  refine Loads.bind (Loads.failWith _) fun _ => Loads.bind (Loads.failWith _) fun _ => ?_
  refine Loads.bind (hclear _ fun s => ⟨_, _, _, rfl⟩) fun _ => ?_
  refine Loads.bind (loadSchemas_loads parser _) fun _ => ?_
  refine Loads.bind (Loads.failWith _) fun _ => Loads.bind (Loads.failWith _) fun _ => ?_
  refine Loads.bind (hclear _ fun s => ⟨_, _, _, rfl⟩) fun _ => ?_
  refine Loads.bind (Loads.failWith _) fun _ => Loads.bind (Loads.failWith _) fun _ => ?_
  exact loadIndexes_loads parser _

theorem Loads.undisturbed (s t : Storage size Def) (h : Loads s t) : Undisturbed s t := by
  obtain ⟨_, _, _, rfl⟩ := h
  exact ⟨rfl, rfl, rfl, fun _ => rfl,
    fun h => ⟨⟨h.written, h.depth, h.pages⟩, rfl, fun _ => .rfl⟩⟩

theorem loadSchema_undisturbed (parser : SchemaParser Def) (fault : OpenFault) :
    Always (@Undisturbed size Def) (loadSchema parser fault) :=
  isolated_undisturbed ((loadDefinitions_loads parser fault).mono Loads.undisturbed)

/-! ## Opening -/

/-- The pages of the statement are the same. -/
def SameWritten (t t' : Btree size) : Prop := t'.writtenPages = t.writtenPages

theorem recoverPages_sameWritten (deadTids numbers : List Nat) :
    Always (@SameWritten size) (recoverPages deadTids numbers) := by
  have hrefl : ∀ t : Btree size, SameWritten t t := fun _ => rfl
  have htrans : ∀ t u v : Btree size, SameWritten t u → SameWritten u v →
      SameWritten t v := fun t u v first second => Eq.trans second first
  induction numbers with
  | nil => exact Always.pure hrefl ()
  | cons n numbers ih =>
      refine Always.bind htrans (fun t => ?_) fun page => Always.ite ?_ ih
      · unfold Btree.fetchPage
        cases t.pages[n]? <;> rfl
      · refine Always.bind htrans (.ofExcept hrefl _) fun recovered => ?_
        refine Always.bind htrans (fun t => ?_) fun _ => ih
        show t.writtenPages = t.writtenPages
        rfl

theorem Undisturbed.onBtree {α : Type} {x : BtreeM size α}
    (hx : Always SameWritten x) :
    Always (@Undisturbed size Def) (Storage.onBtree x) := by
  intro s
  have hwritten := hx s.btree
  have hfinal : final (Storage.onBtree x s) = { s with btree := final (x s.btree) } := by
    unfold Storage.onBtree
    cases x s.btree <;> rfl
  rw [hfinal]
  exact ⟨rfl, rfl, rfl, fun _ => rfl, fun h =>
    ⟨⟨hwritten.trans h.written, h.depth, h.pages⟩, rfl, fun _ => .rfl⟩⟩

theorem recoverDead_undisturbed (exclusive alone : Bool) (fault : OpenFault)
    (header : Header) :
    Always (@Undisturbed size Def) (recoverDead exclusive alone fault header) := by
  have hfail : ∀ step, Always (@Undisturbed size Def) (failAt fault step) :=
    fun step => Undisturbed.failWith _
  refine .get_bind fun s => ?_
  refine Always.ite (Undisturbed.bind (hfail _) fun _ => .ite ?_ ?_) ?_ s
  · refine Undisturbed.bind (.get_bind fun t => ?_) fun _ =>
      Undisturbed.bind (hfail _) fun _ => .pure .refl _
    refine Undisturbed.bind (hfail _) (fun _ => Undisturbed.bind (.onBtree ?_) fun _ => ?_) t
    · exact recoverPages_sameWritten _ _
    · exact .pure .refl _
  · exact .pure .refl _
  · exact .pure .refl _

theorem openFile_undisturbed (parser : SchemaParser Def) (exclusive alone : Bool)
    (fault : OpenFault) :
    Always (@Undisturbed size Def) (openFile parser exclusive alone fault) := by
  refine Undisturbed.bind (Undisturbed.failWith _) fun _ => .get_bind fun s => ?_
  refine Undisturbed.bind (recoverDead_undisturbed exclusive alone fault _)
    (fun header => Undisturbed.bind ?_ fun _ => .ite ?_ ?_) s
  · exact Always.modify fun s => ⟨rfl, rfl, rfl, fun _ => rfl,
      fun h => ⟨⟨h.written, h.depth, h.pages⟩, rfl, fun _ => .rfl⟩⟩
  · exact .pure .refl _
  · exact loadSchema_undisturbed parser fault

/-- What a connection keeps of its transaction between statements. -/
structure Keeps (s t : Storage size Def) : Prop where
  medium : t.medium = s.medium
  state : t.transactionState = s.transactionState
  id : s.transactionState = .active → t.transactionId = s.transactionId
  depth : t.isolationDepth = s.isolationDepth
  pages : ∀ n, n ∈ t.transactionPages ↔ n ∈ s.transactionPages

/-- A connection can be between two statements. -/
structure Parked (s : Storage size Def) : Prop where
  depth : 0 ≤ s.isolationDepth
  pages : s.transactionState = .notActive → s.transactionPages = []

theorem openStorage_bind_keeps (parser : SchemaParser Def) (exclusive alone : Bool)
    (fault : OpenFault) {rest : StorageM size Def Unit} (hrest : Always Undisturbed rest)
    {s : Storage size Def} (hs : s.Parked) :
    s.Keeps (final ((do openStorage parser exclusive alone fault; rest) s)) ∧
      (final ((do openStorage parser exclusive alone fault; rest) s)).committed =
        s.committed := by
  unfold openStorage
  simp only [bind_assoc]
  cases hread : (fault.bind fun f => if f.1 = .readHeader then some f.2 else none) with
  | some e =>
      have hfail : ∀ f : Unit → StorageM size Def Unit,
          (failAt fault .readHeader >>= f) s = .error e s := by
        intro f
        simp only [failAt, hread]
        rfl
      rw [hfail]
      exact ⟨⟨rfl, rfl, fun _ => rfl, rfl, fun _ => .rfl⟩, rfl⟩
  | none =>
      have hfile := Undisturbed.bind (openFile_undisturbed parser exclusive alone fault)
        (fun _ => hrest) (s.usePager exclusive)
      have hfail : ∀ f : Unit → StorageM size Def Unit,
          (failAt fault .readHeader >>= f) s = f () s := by
        intro f
        simp only [failAt, hread]
        rfl
      rw [hfail]
      obtain ⟨-, hdepth, hpages⟩ := hfile.quiet ⟨rfl, hs.depth, hs.pages⟩
      exact ⟨⟨hfile.medium, hfile.state, hfile.id, hdepth, hpages⟩, hfile.committed⟩

theorem openStorage_keeps (parser : SchemaParser Def) (exclusive alone : Bool)
    (fault : OpenFault) {s : Storage size Def} (hs : s.Parked) :
    s.Keeps (final (openStorage parser exclusive alone fault s)) ∧
      (final (openStorage parser exclusive alone fault s)).committed = s.committed := by
  have h := openStorage_bind_keeps parser exclusive alone fault
    (Always.pure Undisturbed.refl ()) hs
  rwa [bind_pure_unit] at h

end Vsql.Storage
