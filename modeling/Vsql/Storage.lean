import Vsql.Walk
import Vsql.Foundation.OrderedMap

/-!
# Storage

A storage is what a connection keeps of one database: the header, the B-tree
of the current statement, the definitions that are cached, and the state of its
transaction.  A statement that changes the database starts with a snapshot and
either keeps its changes or puts the snapshot back.

A definition is stored as SQL.  How its text is parsed is a parameter.
-/

namespace Vsql

open Foundation StateError

inductive TransactionState where
  | notActive
  | active
  deriving DecidableEq, Repr

structure StatementSnapshot (Def : Type) where
  header : Header
  tables : OrderedMap String Def
  schemas : OrderedMap String Def
  indexes : OrderedMap String Def
  transactionState : TransactionState
  transactionId : Nat
  transactionPages : List Nat
  isolationDepth : Int

/-- What has been committed: the content of the database file, or the pages
that a `MemoryPager` goes back to. -/
structure CommittedState (size : PageSize) where
  header : Header
  pages : List (Page size)

inductive Medium where
  | file
  | memory
  deriving DecidableEq, Repr

structure Storage (size : PageSize) (Def : Type) where
  medium : Medium
  committed : CommittedState size
  header : Header
  btree : Btree size
  tables : OrderedMap String Def
  schemas : OrderedMap String Def
  indexes : OrderedMap String Def
  transactionState : TransactionState
  transactionId : Nat
  isolationDepth : Int
  transactionPages : List Nat
  readOnly : Bool
  snapshot : StatementSnapshot Def
  /-- By key and transaction, the last value of each sequence that was used. -/
  sequenceValues : OrderedMap (Bytes × Nat) PageObject
  isolationError : Option Failure
  constraintModes : OrderedMap String Bool
  deferredChecks : OrderedMap String String

abbrev StorageM (size : PageSize) (Def : Type) := EStateM Failure (Storage size Def)

/-- The definitions that the objects of a schema stand for, with their names. -/
structure SchemaParser (Def : Type) where
  table : PageObject → Except Failure (String × Def)
  schema : PageObject → Except Failure (String × Def)
  /-- There is none if the table of the index is not known. -/
  index : OrderedMap String Def → PageObject → Except Failure (Option (String × Def))

namespace Storage

variable {size : PageSize} {Def : Type}

def new (medium : Medium) : Storage size Def where
  medium := medium
  committed := ⟨.new size, []⟩
  header := .new size
  btree := .empty
  tables := .empty
  schemas := .empty
  indexes := .empty
  transactionState := .notActive
  transactionId := 0
  isolationDepth := 0
  transactionPages := []
  readOnly := false
  snapshot := ⟨.new size, .empty, .empty, .empty, .notActive, 0, [], 0⟩
  sequenceValues := .empty
  isolationError := none
  constraintModes := .empty
  deferredChecks := .empty

/-- A change of the pages in the B-tree of the current statement. -/
def onBtree {α : Type} (x : BtreeM size α) : StorageM size Def α := fun s =>
  match x s.btree with
  | .ok a btree => .ok a { s with btree := btree }
  | .error e btree => .error e { s with btree := btree }

def failWith : Option Failure → StorageM size Def Unit
  | some e => throw e
  | none => pure ()

/-- A page that is stored with the pager is not one of the written pages. -/
def pagerStorePage (pageNumber : Nat) (page : Page size) : BtreeM size Unit :=
  fun t => .ok () { t with pages := t.pages.set pageNumber page }

/-! ## Statements -/

def beginStatement (s : Storage size Def) : Storage size Def :=
  { s with
    snapshot := ⟨s.header, s.tables, s.schemas, s.indexes, s.transactionState,
      s.transactionId, s.transactionPages, s.isolationDepth⟩
    btree := { s.btree with writtenPages := [] }
    sequenceValues := .empty }

/-- How a write to the log ends.  An error does not always mean that the log
does not have the statement. -/
inductive LogResult where
  | written
  | failed (e : Failure)
  | writtenAndFailed (e : Failure)

def commitStatement (log : LogResult) : StorageM size Def Unit := fun s =>
  match s.medium with
  | .memory =>
      .ok () { s with
        committed := ⟨{ s.committed.header with rootPage := s.btree.rootPage },
          s.btree.pages⟩ }
  | .file =>
      let header := { s.header with rootPage := s.btree.rootPage }
      let kept := { s with header := header }
      let written := { s with header := header, committed := ⟨header, s.btree.pages⟩ }
      match log with
      | .written => .ok () written
      | .failed e => .error e kept
      | .writtenAndFailed e => .error e written

/-- The state before the statement.  The pager of a file keeps its root page. -/
def putBack (s : Storage size Def) : Storage size Def :=
  { s with
    header := s.snapshot.header
    tables := s.snapshot.tables
    schemas := s.snapshot.schemas
    indexes := s.snapshot.indexes
    transactionState := s.snapshot.transactionState
    transactionId := s.snapshot.transactionId
    isolationDepth := s.snapshot.isolationDepth
    transactionPages := s.snapshot.transactionPages
    btree :=
      { pages := s.committed.pages
        rootPage := match s.medium with
          | .file => s.btree.rootPage
          | .memory => s.committed.header.rootPage
        writtenPages := [] }
    sequenceValues := .empty }

def replaceValues : List PageObject → BtreeM size Unit
  | [] => pure ()
  | obj :: objects => do
      Btree.replaceValue obj obj.value
      replaceValues objects

/-- Values issued by sequences are kept. -/
def discardStatement (log : LogResult) : StorageM size Def Unit := do
  let s ← get
  let values := s.sequenceValues.entries.map Prod.snd
  modify putBack
  if values ≠ [] then do
    onBtree (replaceValues values)
    commitStatement log

/-- `CatalogConnection.finish_write`, for a catalog with a write connection. -/
def finishWrite (success : Bool) (log discardLog : LogResult) :
    StorageM size Def Unit := fun s =>
  if success then
    match commitStatement log s with
    | .ok () t => .ok () t
    | .error e t =>
        match discardStatement discardLog t with
        | .ok () u => .error e u
        | .error _ u => .error e u
  else discardStatement discardLog s

/-! ## Isolation -/

def isolationStart : StorageM size Def Unit := do
  let s ← get
  match s.transactionState with
  | .active => pure ()
  | .notActive =>
      if s.isolationDepth > 0 then
        modify fun s => { s with isolationDepth := s.isolationDepth + 1 }
      else if s.readOnly then
        modify fun s => { s with transactionId := 0, isolationDepth := 1 }
      else do
        let transactionId := s.header.transactionId + 1
        modify fun s => { s with
          header := { s.header with transactionId := transactionId }
          transactionId := transactionId }
        let ids ← ofExcept (s.header.activeTransactionIds.add transactionId)
        modify fun s => { s with
          header := { s.header with activeTransactionIds := ids }
          isolationDepth := 1 }

/-- The objects that a transaction expired are removed from a page. -/
def removeExpired (transactionId : Nat) (page : Page size) : Page size :=
  page.objects.foldl (fun page o =>
    if o.xid = transactionId then (page.delete o.key o.tid).1 else page) page

def expiredBlobRefs (transactionId : Nat) (page : Page size) : List PageObject :=
  page.objects.filter fun o => o.xid = transactionId ∧ o.isBlobRef

def removeExpiredFrom (transactionId : Nat) :
    List Nat → BtreeM size (List PageObject)
  | [] => pure []
  | pageNumber :: pageNumbers => do
      let page ← Btree.fetchPage pageNumber
      pagerStorePage pageNumber (removeExpired transactionId page)
      let blobRefs ← removeExpiredFrom transactionId pageNumbers
      pure (expiredBlobRefs transactionId page ++ blobRefs)

def removeBlobs : List PageObject → BtreeM size Unit
  | [] => pure ()
  | ref :: refs => do
      Btree.removeBlob ref
      removeBlobs refs

/-- What COMMIT and the end of an implicit transaction have in common. -/
def removeExpiredObjects (transactionId : Nat) (pageNumbers : List Nat) :
    BtreeM size Unit := do
  let blobRefs ← removeExpiredFrom transactionId pageNumbers
  removeBlobs blobRefs

def keepWrittenPages (s : Storage size Def) : Storage size Def :=
  { s with
    transactionPages := s.transactionPages ∪ s.btree.writtenPages
    btree := { s.btree with writtenPages := [] } }

def leaveIsolation (s : Storage size Def) : Storage size Def :=
  if s.transactionState = .notActive then
    { s with isolationDepth := s.isolationDepth - 1 }
  else s

def endTransactionId (s : Storage size Def) : Storage size Def :=
  { s with
    transactionPages := []
    header := { s.header with
      activeTransactionIds := s.header.activeTransactionIds.remove s.transactionId } }

def isolationEnd (fault : Option Failure) : StorageM size Def Unit := do
  modify leaveIsolation
  failWith fault
  modify keepWrittenPages
  let s ← get
  if s.transactionState = .active ∨ s.isolationDepth > 0 ∨ s.readOnly then pure ()
  else do
    onBtree (removeExpiredObjects s.transactionId s.transactionPages)
    modify endTransactionId

/-- `end_isolation` keeps the first error for the end of the statement. -/
def endIsolation (fault : Option Failure) (s : Storage size Def) :
    Storage size Def :=
  match isolationEnd fault s with
  | .ok () t => t
  | .error e t => { t with isolationError := t.isolationError <|> some e }

/-- The isolation block ends however its body ends. -/
def isolated (fault : Option Failure) (body : StorageM size Def Unit) :
    StorageM size Def Unit := do
  isolationStart
  fun s => match body s with
    | .ok () t => .ok () (endIsolation fault t)
    | .error e t => .error e (endIsolation fault t)

def takeIsolationError : StorageM size Def Unit := do
  let s ← get
  match s.isolationError with
  | none => pure ()
  | some e => do
      modify fun s => { s with isolationError := none }
      throw e

/-! ## Recovery -/

/-- What a transaction that is gone did to the objects of a page is undone. -/
def undo (gone : Nat → Bool) (page : Page size) :
    List PageObject → Except Failure (Page size)
  | [] => .ok page
  | o :: objects =>
      if gone o.tid then undo gone (page.delete o.key o.tid).1 objects
      else if gone o.xid then
        match page.expire o.key o.tid 0 with
        | .ok (page, _) => undo gone page objects
        | .error e => .error e
      else undo gone page objects

def otherTransactionIds (s : Storage size Def) (header : Header) : List Nat :=
  header.activeTransactionIds.tids.filter fun tid =>
    tid ≠ 0 ∧ (s.transactionState = .notActive ∨ tid ≠ s.transactionId)

def recoverPages (deadTids : List Nat) : List Nat → BtreeM size Unit
  | [] => pure ()
  | pageNumber :: pageNumbers => do
      let page ← Btree.fetchPage pageNumber
      let gone := fun tid => deadTids.contains tid
      if page.kind = .leaf ∧ page.objects.any fun o => gone o.tid ∨ gone o.xid then do
        let recovered ← ofExcept (undo gone page page.objects)
        pagerStorePage pageNumber recovered
        recoverPages deadTids pageNumbers
      else recoverPages deadTids pageNumbers

def withoutIds (header : Header) (deadTids : List Nat) : Header :=
  { header with
    activeTransactionIds := deadTids.foldl .remove header.activeTransactionIds
    schemaVersion := header.schemaVersion + 1 }

/-- A place in `open` where an error can come from outside of the engine. -/
inductive OpenStep where
  | readHeader
  | filePager
  | tryExclusive
  | recover
  | sessionShared
  | loadTables
  | loadSchemas
  | loadIndexes
  deriving DecidableEq, Repr

abbrev OpenFault := Option (OpenStep × Failure)

def failAt (fault : OpenFault) (step : OpenStep) : StorageM size Def Unit :=
  failWith (fault.bind fun f => if f.1 = step then some f.2 else none)

def recover (fault : OpenFault) (header : Header) : StorageM size Def Header := do
  let s ← get
  let deadTids := s.otherTransactionIds header
  failAt fault .recover
  onBtree (recoverPages deadTids (List.range s.btree.pages.length))
  pure (withoutIds header deadTids)

/-! ## Opening a database -/

def isVisible (s : Storage size Def) (o : PageObject) : Bool :=
  objectIsVisible o.tid o.xid s.transactionId s.header.activeTransactionIds

/-- The objects of a range that the current transaction can see. -/
def visibleObjects (s : Storage size Def) (min max : Bytes) : Scan PageObject :=
  let scan := s.btree.rangeObjects min max
  ⟨scan.items.filter s.isVisible, scan.error⟩

def loadTables (parser : SchemaParser Def) : List PageObject → StorageM size Def Unit
  | [] => pure ()
  | o :: objects => do
      let (name, table) ← ofExcept (parser.table o)
      modify fun s => { s with tables := s.tables.set name table }
      loadTables parser objects

def loadSchemas (parser : SchemaParser Def) : List PageObject → StorageM size Def Unit
  | [] => pure ()
  | o :: objects => do
      let (name, schema) ← ofExcept (parser.schema o)
      modify fun s => { s with schemas := s.schemas.set name schema }
      loadSchemas parser objects

def loadIndexes (parser : SchemaParser Def) : List PageObject → StorageM size Def Unit
  | [] => pure ()
  | o :: objects => do
      let s ← get
      match ← ofExcept (parser.index s.tables o) with
      | none => loadIndexes parser objects
      | some (name, index) =>
          modify fun s => { s with indexes := s.indexes.set name index }
          loadIndexes parser objects

def loadDefinitions (parser : SchemaParser Def) (fault : OpenFault) :
    StorageM size Def Unit := do
  modify fun s => { s with tables := .empty }
  let s ← get
  let tables := s.visibleObjects [0x54] [0x55]
  loadTables parser tables.items
  failAt fault .loadTables
  failWith tables.error
  modify fun s => { s with schemas := .empty }
  let schemas := s.visibleObjects [0x53] [0x54]
  loadSchemas parser schemas.items
  failAt fault .loadSchemas
  failWith schemas.error
  modify fun s => { s with indexes := .empty }
  let indexes := s.visibleObjects [0x4e] [0x4f]
  failAt fault .loadIndexes
  failWith indexes.error
  loadIndexes parser indexes.items

def loadSchema (parser : SchemaParser Def) (fault : OpenFault) :
    StorageM size Def Unit :=
  isolated none (loadDefinitions parser fault)

/-- The pager and the B-tree of an operation on the file. -/
def usePager (s : Storage size Def) (exclusive : Bool) : Storage size Def :=
  { s with
    readOnly := !exclusive
    btree := ⟨s.committed.pages, s.committed.header.rootPage, []⟩ }

/-- `alone` is whether no other connection holds the session lock. -/
def recoverDead (exclusive alone : Bool) (fault : OpenFault) (header : Header) :
    StorageM size Def Header := do
  let s ← get
  if exclusive ∧ s.otherTransactionIds header ≠ [] then do
    failAt fault .tryExclusive
    if alone then do
      let header ← recover fault header
      failAt fault .sessionShared
      pure header
    else pure header
  else pure header

/-- The part of `open` in which the file is used. -/
def openFile (parser : SchemaParser Def) (exclusive alone : Bool) (fault : OpenFault) :
    StorageM size Def Unit := do
  failAt fault .filePager
  let s ← get
  let header ← recoverDead exclusive alone fault s.committed.header
  modify fun s => { s with header := header }
  -- The schema is only loaded again if it has changed.
  if header.schemaVersion = s.header.schemaVersion then pure ()
  else loadSchema parser fault

def openStorage (parser : SchemaParser Def) (exclusive alone : Bool) (fault : OpenFault) :
    StorageM size Def Unit := do
  failAt fault .readHeader
  modify fun s => s.usePager exclusive
  openFile parser exclusive alone fault

end Storage
end Vsql
