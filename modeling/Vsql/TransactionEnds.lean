import Vsql.Transactions.Ledger

/-!
# What is left of a transaction

After ROLLBACK no object of the transaction is left in a leaf, and after COMMIT
no object that it expired.  This holds in every run in which no statement moves
an object of another open transaction to a new page: the pages that COMMIT and
ROLLBACK visit are those that the transaction itself has written.
-/

namespace Vsql

open Foundation StateError

variable {size : PageSize} {Def : Type}

namespace Sessions

/-- Nothing is left of the transactions that have ended, except for what they
have committed. -/
def NothingLeft (S : Sessions size Def) : Prop :=
  (∀ T ∈ S.rolledBack, S.file.tree.Lacks (Owns T)) ∧
    ∀ T ∈ S.committed, S.file.tree.Lacks fun _ xid => xid = T

theorem ledger_of_reaches {parser : SchemaParser Def} {S : Sessions size Def}
    (h : Reaches (Step parser) (Allowed parser) init S) : S.Ledger :=
  h.invariant (fun _ _ _ hS hallowed hstep => hstep ▸ hS.step hallowed) Ledger.init

theorem nothingLeft_of_reaches {parser : SchemaParser Def} {S : Sessions size Def}
    (h : Reaches (Step parser) (Allowed parser) init S) : S.NothingLeft := by
  have hledger := ledger_of_reaches h
  exact ⟨fun T hT => (hledger.rolledBack T hT).lacks,
    fun T hT => (hledger.committed T hT).lacks⟩

/-! ## Statements of a single connection -/

/-- Whether a statement issues no value of a sequence. -/
def issuesNothing (parser : SchemaParser Def) (S : Sessions size Def) (connection : Nat)
    (stmt : Statement Def) (faults : Faults) : Bool :=
  match S.connections[connection]? with
  | some (some s) =>
      match Storage.openStorage parser true (S.alone connection) faults.opening
          { s with committed := S.file } with
      | .ok _ u =>
          (Storage.attempt (stmt.body parser faults) u.beginStatement).1.issuedValues.isEmpty
      | .error _ _ => true
  | _ => true

theorem discardsInPlace_of_issuesNothing {parser : SchemaParser Def}
    {S : Sessions size Def} {c : Nat} {stmt : Statement Def} {faults : Faults}
    {s : Storage size Def} (hs : S.connections[c]? = some (some s))
    (h : S.issuesNothing parser c stmt faults = true) :
    Storage.DiscardsInPlace parser (S.alone c) faults stmt { s with committed := S.file } := by
  intro u hu
  simp only [issuesNothing, hs, hu, List.isEmpty_iff] at h
  simp only [h, Storage.ReplaysInPlace]

theorem allowed_of_safe {parser : SchemaParser Def} {S : Sessions size Def} {c : Nat}
    {stmt : Statement Def} {faults : Faults} (hlog : faults.log.Truthful)
    (h : S.issuesNothing parser c stmt faults = true)
    (hsafe : ∀ s : Storage size Def, stmt.Safe (S.others c) s) :
    S.Allowed parser (.execute c stmt faults) := fun _ hs =>
  ⟨hlog, fun _ _ => hsafe _, discardsInPlace_of_issuesNothing hs h⟩

/-- A connection that is alone can add objects. -/
theorem allowed_of_alone {parser : SchemaParser Def} {S : Sessions size Def} {c : Nat}
    {stmt : Statement Def} {faults : Faults} (halone : S.alone c = true)
    (hlog : faults.log.Truthful) (h : S.issuesNothing parser c stmt faults = true)
    (hsafe : ∀ s : Storage size Def, stmt.Safe (fun _ => False) s) :
    S.Allowed parser (.execute c stmt faults) := by
  have hothers : S.others c = fun _ => False := by
    funext T
    refine eq_false fun hT => ?_
    rw [not_alone hT] at halone
    cases halone
  exact allowed_of_safe hlog h (hothers ▸ hsafe)

/-! ## Runs -/

abbrev page200 : PageSize := ⟨200, by decide, by decide⟩

/-- A database in which no definitions are looked at. -/
def noDefinitions : SchemaParser Unit :=
  ⟨fun _ => .ok ("", ()), fun _ => .ok ("", ()), fun _ _ => .ok none⟩

def noFaults : Faults := ⟨none, none, none, .written, .written⟩

/-- A statement that adds one object with a value of 40 bytes. -/
def insertRow (id : UInt8) : Statement Unit :=
  .change (.isolation none (.op (.add [0x52, id] (List.replicate 40 0)) .done) .done)

def after (events : List (SessionEvent Unit)) : Sessions page200 Unit :=
  events.foldl (Sessions.step noDefinitions) .init

theorem reaches_after {events : List (SessionEvent Unit)}
    (h : Reaches (Step noDefinitions) (Allowed noDefinitions) .init (after events))
    (e : SessionEvent Unit) (hallowed : (after events).Allowed noDefinitions e) :
    Reaches (Step noDefinitions) (Allowed noDefinitions) .init (after (events ++ [e])) :=
  .next h hallowed (by simp [Step, after, List.foldl_append])

/-- Whether the row is added to a leaf that has room for it. -/
def insertsWithoutSplit (S : Sessions page200 Unit) (connection : Nat) (id : UInt8) : Bool :=
  match S.connections[connection]? with
  | some (some s) =>
      match Storage.openStorage noDefinitions true (S.alone connection) noFaults.opening
          { s with committed := S.file } with
      | .ok _ u =>
          match Storage.isolationStart u.beginStatement with
          | .ok _ t =>
              let obj : PageObject := .new [0x52, id] t.transactionId 0 (List.replicate 40 0)
              decide (Btree.pieces page200 obj = .ok [obj] ∧ Btree.movedObjects obj t.btree = [])
          | .error _ _ => true
      | .error _ _ => true
  | _ => true

theorem allowed_of_insertsWithoutSplit {S : Sessions page200 Unit} {c : Nat} {id : UInt8}
    (hissues : S.issuesNothing noDefinitions c (insertRow id) noFaults = true)
    (h : S.insertsWithoutSplit c id = true) :
    S.Allowed noDefinitions (.execute c (insertRow id) noFaults) := by
  intro s hs
  refine ⟨trivial, fun u hu => ?_, discardsInPlace_of_issuesNothing hs hissues⟩
  refine ⟨fun t ht => ⟨fun T _ objects hobjects => ?_, fun _ _ => trivial⟩, fun _ _ => trivial⟩
  simp only [insertsWithoutSplit, hs, hu, ht, decide_eq_true_eq] at h
  rw [h.1, Except.ok.injEq] at hobjects
  subst hobjects
  refine ⟨fun o ho => ?_, fun _ _ _ => trivial⟩
  rw [h.2] at ho
  cases ho

/-- A transaction of the first connection is rolled back after the second connection has
written to the same leaf. -/
def rollbackShared : List (SessionEvent Unit) :=
  [.connect, .connect, .execute 0 .startTransaction noFaults,
    .execute 0 (insertRow 9) noFaults, .execute 1 (insertRow 1) noFaults,
    .execute 0 .rollback noFaults]

theorem nothingLeft_of_rollbackShared :
    (after rollbackShared).rolledBack = [3] ∧ (after rollbackShared).committed = [4] ∧
      (after rollbackShared).NothingLeft := by
  refine ⟨by decide +kernel, by decide +kernel, ?_⟩
  have hfirst := reaches_after (.refl (after [])) .connect trivial
  have hsecond := reaches_after hfirst .connect trivial
  have hstart := reaches_after hsecond (.execute 0 .startTransaction noFaults)
    (allowed_of_safe trivial (by decide +kernel) fun _ => trivial)
  have hinsert := reaches_after hstart (.execute 0 (insertRow 9) noFaults)
    (allowed_of_insertsWithoutSplit (by decide +kernel) (by decide +kernel))
  have hother := reaches_after hinsert (.execute 1 (insertRow 1) noFaults)
    (allowed_of_insertsWithoutSplit (by decide +kernel) (by decide +kernel))
  exact nothingLeft_of_reaches (reaches_after hother (.execute 0 .rollback noFaults)
    (allowed_of_safe trivial (by decide +kernel) fun _ => trivial))

/-- The second connection splits the leaf that the first one has written. -/
def rollbackAfterSplit : List (SessionEvent Unit) :=
  [.connect, .connect, .execute 0 .startTransaction noFaults,
    .execute 0 (insertRow 9) noFaults, .execute 1 (insertRow 1) noFaults,
    .execute 1 (insertRow 2) noFaults, .execute 0 .rollback noFaults]

/-- The object that was moved to a new page is left by ROLLBACK. -/
theorem not_nothingLeft_of_rollbackAfterSplit :
    ¬ (after rollbackAfterSplit).NothingLeft := by
  intro h
  have hrolledBack : 3 ∈ (after rollbackAfterSplit).rolledBack := by decide +kernel
  have hleaf : ∃ contents, (after rollbackAfterSplit).file.tree.leafAt 1 = some contents ∧
      ∃ o ∈ contents, o.tid = 3 := by decide +kernel
  obtain ⟨contents, hleaf, o, ho, htid⟩ := hleaf
  exact h.1 3 hrolledBack 1 ⟨contents, hleaf, o, ho, .inl htid⟩

end Sessions
end Vsql
