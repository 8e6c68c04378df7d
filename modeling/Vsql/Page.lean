import Mathlib.Algebra.BigOperators.Group.List.Basic
import Mathlib.Data.List.Sort
import Vsql.Header

/-!
# Pages and their objects

Everything is stored as objects with a key.  The objects of a page are kept in
the order of their keys, and a key may have two versions, which differ in the
transaction that created them.  A page is modelled by its objects; that they
fit into its bytes is part of the type.
-/

namespace Vsql

open Foundation

inductive PageKind where
  | leaf
  | notLeaf
  deriving DecidableEq, Repr

def pageObjectPrefixLength : Nat := 23

structure PageObject where
  key : Bytes
  value : Bytes
  isBlobRef : Bool
  /-- The transaction that created the object. -/
  tid : Nat
  /-- The transaction that deleted the object, or zero. -/
  xid : Nat
  deriving DecidableEq

namespace PageObject

def new (key : Bytes) (tid xid : Nat) (value : Bytes) : PageObject :=
  ⟨key, value, false, tid, xid⟩

def length (o : PageObject) : Nat :=
  pageObjectPrefixLength + o.key.length + o.value.length

def bytes (o : PageObject) : Bytes :=
  writeU32 o.length ++ writeU64 o.tid ++ writeU64 o.xid ++
    writeU16 o.key.length ++ o.key ++ [if o.isBlobRef then 1 else 0] ++ o.value

@[simp] theorem length_bytes (o : PageObject) : o.bytes.length = o.length := by
  simp [bytes, length, pageObjectPrefixLength]
  omega

/-! ## Blobs -/

def blobObjectKey (key : Bytes) (part : Nat) : Bytes :=
  [0x42] ++ key ++ [0x30] ++ writeU32 part

def newBlobObject (key : Bytes) (tid xid part : Nat) (value : Bytes) :
    PageObject :=
  ⟨blobObjectKey key part, value, false, tid, xid⟩

def fragmentObjectKey (key : Bytes) : Bytes := [0x46] ++ key

def newFragmentObject (key : Bytes) (tid xid : Nat) (value : Bytes) :
    PageObject :=
  ⟨fragmentObjectKey key, value, false, tid, xid⟩

def newReferenceObject (key : Bytes) (tid xid blobPieces : Nat)
    (hasFragment : Bool) : PageObject :=
  ⟨key, writeU32 blobPieces ++ [if hasFragment then 1 else 0], true, tid, xid⟩

def blobInfo (o : PageObject) : Nat × Bool :=
  (ofBigEndian (o.value.take 4), ByteFile.byteAt o.value 4 ≠ 0)

/-- The keys of the objects that a blob reference stands for. -/
def blobKeys (o : PageObject) : List Bytes :=
  (List.range o.blobInfo.1).map (blobObjectKey o.key) ++
    if o.blobInfo.2 then [fragmentObjectKey o.key] else []

end PageObject

/-! ## Sizes -/

def objectsSize (objects : List PageObject) : Nat :=
  (objects.map PageObject.length).sum

@[simp] theorem objectsSize_nil : objectsSize [] = 0 := rfl

@[simp] theorem objectsSize_cons (o : PageObject) (objects : List PageObject) :
    objectsSize (o :: objects) = o.length + objectsSize objects := by
  simp [objectsSize]

@[simp] theorem objectsSize_append (first second : List PageObject) :
    objectsSize (first ++ second) = objectsSize first + objectsSize second := by
  simp [objectsSize]

theorem objectsSize_perm {first second : List PageObject}
    (h : first.Perm second) : objectsSize first = objectsSize second :=
  (h.map _).sum_eq

theorem objectsSize_filter_le (p : PageObject → Bool) (objects : List PageObject) :
    objectsSize (objects.filter p) ≤ objectsSize objects := by
  induction objects with
  | nil => simp
  | cons o objects ih =>
      rw [List.filter_cons]
      split <;> simp <;> omega

theorem objectsSize_map {f : PageObject → PageObject}
    (hf : ∀ o, (f o).length = o.length) (objects : List PageObject) :
    objectsSize (objects.map f) = objectsSize objects := by
  simp [objectsSize, Function.comp_def, hf]

/-! ## The order of the objects of a page -/

/-- The sort of `Page.add`, which leaves the versions of a key in their order. -/
def sortObjects (objects : List PageObject) : List PageObject :=
  objects.insertionSort fun a b => a.key ≤ b.key

theorem sortObjects_perm (objects : List PageObject) :
    (sortObjects objects).Perm objects :=
  List.perm_insertionSort _ _

theorem sortObjects_sorted (objects : List PageObject) :
    (sortObjects objects).Pairwise (fun a b => a.key ≤ b.key) :=
  haveI : Std.Total fun a b : PageObject => a.key ≤ b.key :=
    ⟨fun a b => le_total a.key b.key⟩
  haveI : IsTrans PageObject fun a b => a.key ≤ b.key :=
    ⟨fun _ _ _ => le_trans⟩
  List.pairwise_insertionSort _ _

/-! ## Pages -/

structure Page (size : PageSize) where
  kind : PageKind
  objects : List PageObject
  fits : pageHeaderSize + objectsSize objects ≤ size
  deriving DecidableEq

namespace Page

variable {size : PageSize}

def new (kind : PageKind) : Page size :=
  ⟨kind, [], Nat.le_of_lt size.property.1⟩

def used (p : Page size) : Nat := pageHeaderSize + objectsSize p.objects

/-- The transactions that created the versions of a record. -/
def versions (p : Page size) (key : Bytes) : List Nat :=
  (p.objects.filter (·.key = key)).map (·.tid)

def concurrentWrite : Failure :=
  sqlstate40001 "avoiding concurrent write on individual row"

def add (p : Page size) (obj : PageObject) : Except Failure (Page size) :=
  if h : p.used + obj.length ≤ size then
    if (p.versions obj.key).length ≥ 2 then .error concurrentWrite
    else
      .ok ⟨p.kind, sortObjects (p.objects ++ [obj]), by
        rw [objectsSize_perm (sortObjects_perm _), objectsSize_append]
        simpa [used, Nat.add_assoc] using h⟩
  else
    .error (.panic (s!"page cannot fit object of {obj.length} b in page " ++
      s!"using {p.used} b"))

def delete (p : Page size) (key : Bytes) (tid : Nat) : Page size × Bool :=
  (⟨p.kind, p.objects.filter (fun o => ¬(o.key = key ∧ o.tid = tid)), by
      have h := objectsSize_filter_le (fun o => ¬(o.key = key ∧ o.tid = tid)) p.objects
      have := p.fits
      omega⟩,
    p.objects.any fun o => o.key = key ∧ o.tid = tid)

def get (p : Page size) (key : Bytes) (tid : Nat) : Option PageObject :=
  p.objects.find? fun o => o.key = key ∧ o.tid = tid

def setXid (key : Bytes) (tid xid : Nat) (o : PageObject) : PageObject :=
  if o.key = key ∧ o.tid = tid then { o with xid := xid } else o

@[simp] theorem length_setXid (key : Bytes) (tid xid : Nat) (o : PageObject) :
    (setXid key tid xid o).length = o.length := by
  unfold setXid
  split <;> rfl

/-- An object that another transaction has expired cannot be expired again, but
an `xid` of zero always succeeds. -/
def expire (p : Page size) (key : Bytes) (tid xid : Nat) :
    Except Failure (Page size × Bool) :=
  if p.objects.any fun o => o.key = key ∧ o.tid = tid ∧ xid ≠ 0 ∧ o.xid ≠ 0 ∧
      o.xid ≠ xid then
    .error concurrentWrite
  else
    .ok (⟨p.kind, p.objects.map (setXid key tid xid), by
        rw [objectsSize_map (length_setXid key tid xid)]
        exact p.fits⟩,
      p.objects.any fun o => o.key = key ∧ o.tid = tid)

def update (p : Page size) (old : PageObject) (tid : Nat) :
    Except Failure (Page size) :=
  match p.versions old.key with
  | [version] =>
      -- A record of this transaction is replaced, any other one is expired.
      if version = tid then .ok (p.delete old.key tid).1
      else (p.expire old.key version tid).map Prod.fst
  | [_, _] => .ok (p.delete old.key tid).1
  | _ => .ok p

def head (p : Page size) : Option PageObject := p.objects.head?

end Page
end Vsql
