import Vsql.Foundation.StateError
import Vsql.Page

/-!
# The B-tree

The pages of the tree are numbered, and the pages that are not leaves hold one
pointer for each page below them: an object whose key is a lower bound for what
is found there, and whose value is the page number.  A page that becomes too
full is split, which adds pointers to the page above it.

Recursion is bounded by `maxPages`, the largest page number there can be: no
path through the tree is longer than that.
-/

namespace Vsql

open Foundation StateError

/-- The largest `int`, so that page numbers do not overflow. -/
def maxPages : Nat := 2 ^ 31 - 1

structure Btree (size : PageSize) where
  pages : List (Page size)
  rootPage : Nat
  writtenPages : List Nat
  deriving DecidableEq

abbrev BtreeM (size : PageSize) := EStateM Failure (Btree size)

namespace Btree

variable {size : PageSize}

def indexPanic : Failure := .panic "array index out of range"
def overflowPanic : Failure := .panic "page number overflow"

/-! ## The pager -/

def empty : Btree size := ⟨[], 0, []⟩

def totalPages : BtreeM size Nat := fun t => .ok t.pages.length t

def fetchPage (pageNumber : Nat) : BtreeM size (Page size) := fun t =>
  match t.pages[pageNumber]? with
  | some page => .ok page t
  | none => .error indexPanic t

def storePage (pageNumber : Nat) (page : Page size) : BtreeM size Unit :=
  fun t => .ok () { t with
    pages := t.pages.set pageNumber page
    writtenPages := t.writtenPages.insert pageNumber }

def appendPage (page : Page size) : BtreeM size Nat := fun t =>
  if t.pages.length < maxPages then
    .ok t.pages.length { t with
      pages := t.pages ++ [page]
      writtenPages := t.writtenPages.insert t.pages.length }
  else .error overflowPanic t

def setRootPage (pageNumber : Nat) : BtreeM size Unit :=
  fun t => .ok () { t with rootPage := pageNumber }

def lastPage (path : List Nat) : BtreeM size Nat :=
  match path.getLast? with
  | some pageNumber => pure pageNumber
  | none => throw indexPanic

/-- The first object of a page.  It is only asked of pages with objects. -/
def headObject (page : Page size) : BtreeM size PageObject :=
  match page.head with
  | some o => pure o
  | none => throw indexPanic

section

variable {t t' : Btree size} {n : Nat} {page : Page size}

theorem fetchPage_eq_ok :
    fetchPage n t = .ok page t' ↔ t.pages[n]? = some page ∧ t = t' := by
  unfold fetchPage
  cases t.pages[n]? <;> simp

@[simp] theorem totalPages_eq_ok {total : Nat} :
    totalPages t = .ok total t' ↔ t.pages.length = total ∧ t = t' := by
  simp [totalPages]

@[simp] theorem storePage_eq_ok {u : Unit} :
    storePage n page t = .ok u t' ↔ { t with
      pages := t.pages.set n page
      writtenPages := t.writtenPages.insert n } = t' := by
  simp [storePage]

theorem appendPage_eq_ok :
    appendPage page t = .ok n t' ↔
      t.pages.length < maxPages ∧ t.pages.length = n ∧ { t with
        pages := t.pages ++ [page]
        writtenPages := t.writtenPages.insert t.pages.length } = t' := by
  unfold appendPage
  split <;> simp_all

@[simp] theorem setRootPage_eq_ok {u : Unit} :
    setRootPage n t = .ok u t' ↔ { t with rootPage := n } = t' := by
  simp [setRootPage]

theorem lastPage_eq_ok {path : List Nat} :
    lastPage path t = .ok n t' ↔ path.getLast? = some n ∧ t = t' := by
  unfold lastPage
  cases path.getLast? <;> simp

theorem headObject_eq_ok {o : PageObject} :
    headObject page t = .ok o t' ↔ page.objects.head? = some o ∧ t = t' := by
  unfold headObject Page.head
  cases page.objects.head? <;> simp

end

/-! ## Searching -/

def pointer (key : Bytes) (pageNumber : Nat) : PageObject :=
  .new key 0 0 (writeU32 pageNumber)

/-- The page that a pointer leads to. -/
def target (o : PageObject) : Nat := ofBigEndian (o.value.take 4)

/-- The position of the last pointer whose key is not greater, or else 0. -/
def pointerIndex (key : Bytes) (objects : List PageObject) : Nat :=
  objects.length - 1 - objects.reverse.findIdx (·.key ≤ key)

/-- The path below a page, and the position of the pointer in each page of it
that is not a leaf. -/
def searchFrom (key : Bytes) : Nat → Nat → BtreeM size (List Nat × List Nat)
  | 0, _ => throw overflowPanic
  | fuel + 1, currentPage => do
      let page ← fetchPage currentPage
      match page.kind with
      | .leaf => pure ([currentPage], [])
      | .notLeaf =>
          let index := pointerIndex key page.objects
          match page.objects[index]? with
          | none => throw indexPanic
          | some o =>
              let (path, depthIterator) ← searchFrom key fuel (target o)
              pure (currentPage :: path, index :: depthIterator)

def searchPage (key : Bytes) : BtreeM size (List Nat × List Nat) := fun t =>
  searchFrom key maxPages t.rootPage t

/-! ## Splitting -/

def maxAllowedInPage (size : PageSize) : Nat := size - pageHeaderSize

/-- The groups of `split_objects`: `group` is the one being filled, from last to
first. -/
def splitObjectsInto (size : PageSize) (group : List PageObject)
    (consumed : Nat) : List PageObject → List (List PageObject)
  | [] => [group.reverse]
  | object :: objects =>
      match group with
      | [] => splitObjectsInto size [object] (consumed + object.length) objects
      | last :: before =>
          if consumed + object.length ≤ maxAllowedInPage size then
            splitObjectsInto size (object :: last :: before)
              (consumed + object.length) objects
          -- Two versions of a key stay on the same page.
          else if before ≠ [] ∧ last.key = object.key ∧
              last.length + object.length ≤ maxAllowedInPage size then
            before.reverse :: splitObjectsInto size [object, last]
              (last.length + object.length) objects
          else
            (last :: before).reverse ::
              splitObjectsInto size [object] object.length objects

def splitObjects (size : PageSize) (objects : List PageObject) :
    List (List PageObject) :=
  splitObjectsInto size [] 0 objects

/-- Where a split inserts a new object. -/
def insertPosition (obj : PageObject) (objects : List PageObject) :
    Option Nat :=
  objects.findIdx? fun o => obj.key ≤ o.key

def insertObject (obj : PageObject) (objects : List PageObject) :
    List PageObject :=
  match insertPosition obj objects with
  | some i => objects.take i ++ obj :: objects.drop i
  | none => objects ++ [obj]

def buildPage (kind : PageKind) (objects : List PageObject) :
    Except Failure (Page size) :=
  objects.foldlM (fun page o => page.add o) (Page.new kind)

def appendGroups (kind : PageKind) :
    List (List PageObject) → BtreeM size (List Nat)
  | [] => pure []
  | group :: groups => do
      let page ← ofExcept (buildPage kind group)
      let pageNumber ← appendPage page
      let pageNumbers ← appendGroups kind groups
      pure (pageNumber :: pageNumbers)

/-- The first group stays in the page being split. -/
def storeGroups (kind : PageKind) (leftPageNumber : Nat) :
    List (List PageObject) → BtreeM size (List Nat)
  | [] => pure []
  | group :: groups => do
      let page ← ofExcept (buildPage kind group)
      storePage leftPageNumber page
      let pageNumbers ← appendGroups kind groups
      pure (leftPageNumber :: pageNumbers)

def groupPointers (groups : List (List PageObject)) (pageNumbers : List Nat) :
    List PageObject :=
  (groups.zip pageNumbers).filterMap fun (group, pageNumber) =>
    group.head?.map fun o => pointer o.key pageNumber

section

-- The call of `split_page` from the functions that it calls.
variable (split : List Nat → Page size → PageObject → PageKind → BtreeM size Unit)

def replacePointer (path : List Nat) (page : Page size) (oldKey : Bytes)
    (ptr : PageObject) : BtreeM size Bool := do
  let page := if oldKey ≠ [] then (page.delete oldKey 0).1 else page
  if page.used + ptr.length > size then
    split path page ptr .notLeaf
    pure true
  else
    let page ← ofExcept (page.add ptr)
    let pageNumber ← lastPage path
    storePage pageNumber page
    pure false

/-- The page above the last one of the path. -/
def parentPage (path : List Nat) : BtreeM size Nat := lastPage path.dropLast

def addPagePointer (path : List Nat) (ptr : PageObject) : BtreeM size Unit := do
  let parentNumber ← parentPage path
  let parent ← fetchPage parentNumber
  if parent.used > size - ptr.length then
    split path.dropLast parent ptr .notLeaf
  else
    let parent ← ofExcept (parent.add ptr)
    storePage parentNumber parent

/-- The path to a page that was found again after its parent may have moved. -/
def pathAgain (key : Bytes) (pageNumber : Nat) : BtreeM size (List Nat) := do
  let (searchPath, _) ← searchPage key
  match searchPath.findIdx? (· = pageNumber) with
  | some (index + 1) => pure (searchPath.take (index + 2))
  | _ => throw (sqlstateXX001 s!"cannot find page {pageNumber} after split")

/-- Registers each new page with the parent of the page before it. -/
def linkPages : (previousPath : List Nat) → (again : Bool) →
    (previous : PageObject) → List PageObject → BtreeM size Unit
  | _, _, _, [] => pure ()
  | previousPath, again, previous, ptr :: ptrs => do
      let previousPath ←
        if again then pathAgain previous.key (target previous)
        else pure previousPath
      addPagePointer split previousPath ptr
      linkPages previousPath true ptr ptrs

def newRoot (pointers : List PageObject) : BtreeM size Unit := do
  let root ← ofExcept (buildPage .notLeaf pointers)
  let rootNumber ← appendPage root
  setRootPage rootNumber

/-- The key of the pointer to a page, if there is one. -/
def pointerKey (parent : Page size) (pageNumber : Nat) : Bytes :=
  ((parent.objects.find? fun o => target o = pageNumber).map (·.key)).getD []

/-- The part of a split after the pages have been stored. -/
def linkSplit (path : List Nat) (insertedAt : Option Nat) :
    List PageObject → BtreeM size Unit
  | [] => throw indexPanic
  | first :: others => do
      let leftPageNumber ← lastPage path
      let parentSplit ←
        if insertedAt = some 0 then do
          let parentNumber ← parentPage path
          let parent ← fetchPage parentNumber
          replacePointer split path.dropLast parent
            (pointerKey parent leftPageNumber) first
        else pure false
      linkPages split path parentSplit first others

end

def splitPage : Nat → List Nat → Page size → PageObject → PageKind →
    BtreeM size Unit
  | 0, _, _, _, _ => throw overflowPanic
  | fuel + 1, path, page, obj, kind => do
      let insertedAt := insertPosition obj page.objects
      let groups := splitObjects size (insertObject obj page.objects)
      let leftPageNumber ← lastPage path
      let pageNumbers ← storeGroups kind leftPageNumber groups
      let pointers := groupPointers groups pageNumbers
      -- The root gets a new page above it.
      if path.length = 1 then newRoot pointers
      else linkSplit (splitPage fuel) path insertedAt pointers

/-! ## Lower bounds -/

def fixParentLoop (again : List Nat → BtreeM size Unit) (minKey : Bytes) :
    (above : List Nat) → List Nat → BtreeM size Unit
  | _, [] => pure ()
  | above, pageNumber :: below => do
      let t ← fetchPage pageNumber
      let tHead ← headObject t
      if minKey < tHead.key then
        let newObject := PageObject.new minKey 0 0 tHead.value
        let wasSplit ← replacePointer (splitPage maxPages)
          (above ++ [pageNumber]) t tHead.key newObject
        if wasSplit then do
          let (newPath, _) ← searchPage minKey
          again newPath
        else fixParentLoop again minKey (above ++ [pageNumber]) below
      else fixParentLoop again minKey (above ++ [pageNumber]) below

def fixParentPagesFrom : Nat → List Nat → BtreeM size Unit
  | 0, _ => throw overflowPanic
  | fuel + 1, path =>
      if path.length < 2 then pure ()
      else do
        let leafNumber ← lastPage path
        let leafPage ← fetchPage leafNumber
        let leafHead ← headObject leafPage
        fixParentLoop (fixParentPagesFrom fuel) leafHead.key [] path.dropLast

def fixParentPages (path : List Nat) : BtreeM size Unit :=
  fixParentPagesFrom maxPages path

/-! ## Adding -/

/-- Adding an object that is at most half a page. -/
def addSmall (obj : PageObject) : BtreeM size Nat := do
  let total ← totalPages
  if total = 0 then
    let page ← ofExcept ((Page.new .leaf : Page size).add obj)
    let pageNumber ← appendPage page
    setRootPage pageNumber
    pure pageNumber
  else
    let (path, _) ← searchPage obj.key
    let leftPageNumber ← lastPage path
    let page ← fetchPage leftPageNumber
    if page.used + obj.length ≤ size then do
      let page ← ofExcept (page.add obj)
      storePage leftPageNumber page
    else splitPage maxPages path page obj .leaf
    let (path, _) ← searchPage obj.key
    fixParentPages path
    pure leftPageNumber

/-- The room for a value in each part of a blob. -/
def blobSize (size : PageSize) (key : Bytes) : Int :=
  (maxAllowedInPage size / 2 : Nat) - pageObjectPrefixLength -
    (PageObject.blobObjectKey key 0).length - 5

/-- The parts that an object larger than half a page is stored as: `remaining`
are its bytes from the part with this number. -/
def blobParts (obj : PageObject) (blobSize : Nat) :
    (fuel : Nat) → (part : Nat) → Bytes → List PageObject
  | 0, _, _ => []
  | fuel + 1, part, remaining =>
      if blobSize ≤ remaining.length then
        .newBlobObject obj.key obj.tid obj.xid part (remaining.take blobSize) ::
          blobParts obj blobSize fuel (part + 1) (remaining.drop blobSize)
      else if remaining = [] then [.newReferenceObject obj.key obj.tid obj.xid part false]
      else [.newFragmentObject obj.key obj.tid obj.xid remaining,
        .newReferenceObject obj.key obj.tid obj.xid part true]

/-- The objects that are added for an object, in order. -/
def pieces (size : PageSize) (obj : PageObject) :
    Except Failure (List PageObject) :=
  if obj.length > maxAllowedInPage size / 2 then
    if blobSize size obj.key < 1 then
      .error (sqlstate54000 (s!"the key of an object ({obj.key.length} bytes) " ++
        s!"is too long for a page of {size.val} bytes"))
    else
      .ok (blobParts obj (blobSize size obj.key).toNat (obj.length + 1) 0 obj.bytes)
  else .ok [obj]

def addPieces : List PageObject → BtreeM size Nat
  | [] => throw indexPanic
  | [obj] => addSmall obj
  | obj :: others => do
      discard (addSmall obj)
      addPieces others

def add (obj : PageObject) : BtreeM size Nat := do
  let objects ← ofExcept (pieces size obj)
  addPieces objects

/-! ## Changing objects -/

def removeBlobKeys (tid : Nat) : List Bytes → BtreeM size Unit
  | [] => pure ()
  | key :: keys => do
      let (path, _) ← searchPage key
      let pageNumber ← lastPage path
      let page ← fetchPage pageNumber
      if (page.delete key tid).2 then storePage pageNumber (page.delete key tid).1
      removeBlobKeys tid keys

def removeBlob (ref : PageObject) : BtreeM size Unit :=
  removeBlobKeys ref.tid ref.blobKeys

/-- The first half of `update`: the version that is replaced or expired. -/
def replaceVersion (obj : PageObject) : BtreeM size Nat := do
  let (path, _) ← searchPage obj.key
  let pageNumber ← lastPage path
  let page ← fetchPage pageNumber
  let ownVersion := page.get obj.key obj.tid
  let page ← ofExcept (page.update obj obj.tid)
  storePage pageNumber page
  match ownVersion with
  | some own => if own.isBlobRef then removeBlob own
  | none => pure ()
  pure pageNumber

def update (obj : PageObject) : BtreeM size Nat := do
  let pageNumber ← replaceVersion obj
  discard (add obj)
  let (path, _) ← searchPage obj.key
  fixParentPages path
  pure pageNumber

/-- The page that was changed, if the object exists. -/
def expire (key : Bytes) (tid xid : Nat) : BtreeM size (Option Nat) := do
  let (path, _) ← searchPage key
  let pageNumber ← lastPage path
  let page ← fetchPage pageNumber
  let (page, modified) ← ofExcept (page.expire key tid xid)
  if modified then do
    storePage pageNumber page
    pure (some pageNumber)
  else pure none

def replaceValue (obj : PageObject) (value : Bytes) : BtreeM size Unit := do
  let (path, _) ← searchPage obj.key
  let pageNumber ← lastPage path
  let page ← fetchPage pageNumber
  if (page.delete obj.key obj.tid).2 then do
    let page ← ofExcept ((page.delete obj.key obj.tid).1.add
      ⟨obj.key, value, false, obj.tid, obj.xid⟩)
    storePage pageNumber page
  else
    throw (sqlstateXX001 s!"object does not exist: {bytestr obj.key}")

end Btree
end Vsql
