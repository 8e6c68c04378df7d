import Vsql.Storage

/-!
# Statements on one database

What a statement reads decides what it writes.  Here a statement is what it
turns out to do: operations on the storage in isolation blocks, which may be
nested, and perhaps an error.  The error leaves every block that is open.
-/

namespace Vsql

open Foundation StateError

inductive Counter where
  | rowId
  | tableId
  | indexId
  deriving DecidableEq, Repr

inductive Op (Def : Type) where
  | add (key value : Bytes)
  | update (key value : Bytes)
  | expire (key : Bytes) (tid : Nat)
  /-- NEXT VALUE FOR, or the next value of an identity column. -/
  | nextValue (obj : PageObject) (value : Bytes)
  | count (counter : Counter)
  | writeVersion (version : Nat)
  | schemaChanged
  | tables (f : OrderedMap String Def → OrderedMap String Def)
  | schemas (f : OrderedMap String Def → OrderedMap String Def)
  | indexes (f : OrderedMap String Def → OrderedMap String Def)

/-- What happens in an isolation block, with operations of type `O`. -/
inductive Actions (O : Type) where
  | done
  | fail (e : Failure)
  | op (o : O) (next : Actions O)
  | isolation (fault : Option Failure) (body next : Actions O)

/-- What happens in a statement. -/
inductive Work (Def : Type) where
  | done
  | fail (e : Failure)
  | deferCheck (key table : String) (next : Work Def)
  | isolation (fault : Option Failure) (body : Actions (Op Def)) (next : Work Def)

def Header.count (h : Header) : Counter → Header
  | .rowId => { h with rowId := h.rowId + 1 }
  | .tableId => { h with tableId := h.tableId + 1 }
  | .indexId => { h with indexId := h.indexId + 1 }

variable {size : PageSize} {Def : Type}

def Op.run : Op Def → StorageM size Def Unit
  | .add key value => do
      let s ← get
      discard (Storage.onBtree (Btree.add (.new key s.transactionId 0 value)))
  | .update key value => do
      let s ← get
      discard (Storage.onBtree (Btree.update (.new key s.transactionId 0 value)))
  | .expire key tid => do
      let s ← get
      discard (Storage.onBtree (Btree.expire key tid s.transactionId))
  | .nextValue obj value => do
      Storage.onBtree (Btree.replaceValue obj value)
      modify fun s => { s with
        sequenceValues := s.sequenceValues.set (obj.key, obj.tid)
          { obj with value := value } }
  | .count counter => modify fun s => { s with header := s.header.count counter }
  | .writeVersion version =>
      modify fun s => { s with header := { s.header with writeVersion := version } }
  | .schemaChanged =>
      modify fun s => { s with
        header := { s.header with schemaVersion := s.header.schemaVersion + 1 } }
  | .tables f => modify fun s => { s with tables := f s.tables }
  | .schemas f => modify fun s => { s with schemas := f s.schemas }
  | .indexes f => modify fun s => { s with indexes := f s.indexes }

def Actions.run {O : Type} (runOp : O → StorageM size Def Unit) :
    Actions O → StorageM size Def Unit
  | .done => pure ()
  | .fail e => throw e
  | .op o next => do
      runOp o
      next.run runOp
  | .isolation fault body next => do
      Storage.isolated fault (body.run runOp)
      next.run runOp

def Work.run : Work Def → StorageM size Def Unit
  | .done => pure ()
  | .fail e => throw e
  | .deferCheck key table next => do
      modify fun s => { s with deferredChecks := s.deferredChecks.set key table }
      next.run
  | .isolation fault body next => do
      Storage.isolated fault (body.run Op.run)
      next.run

/-! ## The end of a transaction -/

namespace Storage

def startTransaction : StorageM size Def Unit := do
  isolationStart
  modify fun s => { s with transactionState := .active }
  let s ← get
  if s.transactionPages = [] then pure ()
  else throw (.panic "assertion failed: transaction_pages.len == 0")

def endConstraintModes (s : Storage size Def) : Storage size Def :=
  { s with constraintModes := .empty, deferredChecks := .empty }

/-- Whether the transaction created or expired a definition. -/
def changesSchema (s : Storage size Def) : Bool :=
  s.transactionPages.any fun pageNumber =>
    match s.btree.pages[pageNumber]? with
    | none => false
    | some page => page.objects.any fun o =>
        (o.tid = s.transactionId ∨ o.xid = s.transactionId) ∧
          o.key.head? ∈ [some 0x54, some 0x53, some 0x4e]

def schemaChanged (s : Storage size Def) : Storage size Def :=
  { s with header := { s.header with schemaVersion := s.header.schemaVersion + 1 } }

/-- The last part of COMMIT and ROLLBACK: the transaction is no longer active
before the isolation block that START TRANSACTION began ends. -/
def endTransaction (fault : Option Failure) : StorageM size Def Unit := do
  modify fun s => { s with transactionState := .notActive }
  isolationEnd fault
  modify fun s => endConstraintModes { s with transactionPages := [] }

def commitTransaction (fault : Option Failure) : StorageM size Def Unit := do
  let s ← get
  onBtree (removeExpiredObjects s.transactionId s.transactionPages)
  endTransaction fault
  if s.changesSchema then modify schemaChanged else pure ()

def undoPages (transactionId : Nat) : List Nat → BtreeM size Unit
  | [] => pure ()
  | pageNumber :: pageNumbers => do
      let page ← Btree.fetchPage pageNumber
      let undone ← ofExcept (undo (fun tid => tid = transactionId) page page.objects)
      pagerStorePage pageNumber undone
      undoPages transactionId pageNumbers

def rollbackTransaction (parser : SchemaParser Def) (fault : Option Failure)
    (loadFault : OpenFault) : StorageM size Def Unit := do
  let s ← get
  onBtree (undoPages s.transactionId s.transactionPages)
  endTransaction fault
  if s.changesSchema then do
    modify schemaChanged
    loadSchema parser loadFault
  else pure ()

end Storage

/-! ## Whole statements -/

/-- The faults that a statement meets. -/
structure Faults where
  /-- When the database is opened. -/
  opening : Storage.OpenFault
  /-- At the end of the transaction. -/
  ending : Option Failure
  /-- When the schema is loaded again. -/
  loading : Storage.OpenFault
  log : Storage.LogResult
  discardLog : Storage.LogResult

inductive Statement (Def : Type) where
  | read (body : Actions Empty)
  | change (body : Work Def)
  | startTransaction
  /-- The deferred constraints are checked first. -/
  | commit (checks : Work Def)
  | rollback

def sqlstate25001 : Failure :=
  .error .s25001 "invalid transaction state: active sql transaction"
def sqlstate2D000 : Failure := .error .s2D000 "invalid transaction termination"

def sqlstate25006 (header : Header) : Failure :=
  .error .s25006 (s!"read-only sql transaction: database needs file format " ++
    s!"{header.writeVersion} to be changed, but this version of vsql only " ++
    s!"supports up to {fileFormatVersion}")

namespace Storage

/-- A statement ends with the storage that it leaves behind, and its error. -/
abbrev Ending (size : PageSize) (Def : Type) := Storage size Def × Option Failure

def forgetIsolationError (s : Storage size Def) : Storage size Def :=
  { s with isolationError := none }

/-- An isolation block that could not be ended also fails the statement. -/
def attempt (body : StorageM size Def Unit) (s : Storage size Def) : Ending size Def :=
  match (do body; takeIsolationError) s with
  | .ok () t => (t, none)
  | .error e t => (t.forgetIsolationError, some e)

/-- A statement that fails is discarded. -/
def finish (faults : Faults) (body : StorageM size Def Unit)
    (s : Storage size Def) : Ending size Def :=
  match attempt body s with
  | (t, none) =>
      match finishWrite true faults.log faults.discardLog t with
      | .ok () u => (u, none)
      | .error e u => (u, some e)
  | (t, some e) =>
      match finishWrite false faults.log faults.discardLog t with
      | .ok () u => (u, some e)
      | .error _ u => (u, some e)

def withWriteConnection (parser : SchemaParser Def) (alone : Bool) (faults : Faults)
    (body : StorageM size Def Unit) (s : Storage size Def) : Ending size Def :=
  match openStorage parser true alone faults.opening s with
  | .error e t => (t.forgetIsolationError, some e)
  | .ok () t =>
      if t.header.isWritable then finish faults body t.beginStatement
      else (t.forgetIsolationError, some (sqlstate25006 t.header))

def withReadConnection (parser : SchemaParser Def) (faults : Faults)
    (body : StorageM size Def Unit) (s : Storage size Def) : Ending size Def :=
  attempt (do openStorage parser false false faults.opening; body) s

end Storage

/-- A statement can be refused before the database is opened. -/
def Statement.refusal (state : TransactionState) : Statement Def → Option Failure
  | .startTransaction => if state = .active then some sqlstate25001 else none
  | .commit _ => if state = .notActive then some sqlstate2D000 else none
  | .rollback => if state = .notActive then some sqlstate2D000 else none
  | _ => none

def Statement.body (parser : SchemaParser Def) (faults : Faults) :
    Statement Def → StorageM size Def Unit
  | .read body => body.run Empty.elim
  | .change body => body.run
  | .startTransaction => Storage.startTransaction
  | .commit checks => do
      checks.run
      Storage.commitTransaction faults.ending
  | .rollback => Storage.rollbackTransaction parser faults.ending faults.loading

namespace Storage

def execute (parser : SchemaParser Def) (alone : Bool) (faults : Faults)
    (stmt : Statement Def) (s : Storage size Def) : Ending size Def :=
  match stmt.refusal s.transactionState with
  | some e => (s, some e)
  | none =>
      match stmt with
      | .read _ => withReadConnection parser faults (stmt.body parser faults) s
      | _ => withWriteConnection parser alone faults (stmt.body parser faults) s

end Storage
end Vsql
