import Vsql.Btree

/-!
# Walking through a range of the B-tree

An iterator finds the leaf of the lower bound, and then goes on from leaf to
leaf until an object is above the upper bound.  A page that cannot be read ends
the iteration: what is read from the tree is a list of objects and perhaps an
error after the last of them.
-/

namespace Vsql

open Foundation StateError

/-- The results of an iteration: an error comes after all of them. -/
structure Scan (α : Type) where
  items : List α
  error : Option Failure
  deriving DecidableEq

namespace Scan

variable {α β : Type}

def nil : Scan α := ⟨[], none⟩

def fail (e : Failure) : Scan α := ⟨[], some e⟩

def append (first second : Scan α) : Scan α :=
  match first.error with
  | none => ⟨first.items ++ second.items, second.error⟩
  | some _ => first

def concat (scans : List (Scan α)) : Scan α := scans.foldr append nil

/-- An iteration that ends at the first object that does not meet `p`. -/
def takeWhile (p : α → Bool) (scan : Scan α) : Scan α :=
  if scan.items.all p then scan else ⟨scan.items.takeWhile p, none⟩

def map (f : α → Except Failure β) (scan : Scan α) : Scan β :=
  (scan.items.map fun a => match f a with
    | .ok b => ⟨[b], none⟩
    | .error e => fail e).foldr append ⟨[], scan.error⟩

end Scan

namespace PageObject

/-- `parse_page_object`, of the bytes of an object. -/
def parse (data : Bytes) : PageObject :=
  let totalLen := ofBigEndian (data.take 4)
  let keyLen := ofBigEndian ((data.drop 20).take 2)
  { tid := ofBigEndian ((data.drop 4).take 8)
    xid := ofBigEndian ((data.drop 12).take 8)
    key := (data.drop 22).take keyLen
    isBlobRef := ByteFile.byteAt data (22 + keyLen) ≠ 0
    value := (data.drop (23 + keyLen)).take
      (totalLen - pageObjectPrefixLength - keyLen) }

end PageObject

namespace Btree

variable {size : PageSize}

def get (key : Bytes) (tid : Nat) : BtreeM size PageObject := do
  let (path, _) ← searchPage key
  let pageNumber ← lastPage path
  let page ← fetchPage pageNumber
  match page.get key tid with
  | some obj => pure obj
  | none => throw (sqlstateXX001 s!"object does not exist: {bytestr key}")

/-- The object that a blob reference stands for, from its parts. -/
def readBlob (ref : PageObject) : BtreeM size PageObject := do
  let parts ← ref.blobKeys.mapM fun key => get key ref.tid
  let obj := PageObject.parse (parts.flatMap (·.value))
  pure ⟨obj.key, obj.value, false, ref.tid, ref.xid⟩

def eval {α : Type} (x : BtreeM size α) (t : Btree size) : Except Failure α :=
  match x t with
  | .ok a _ => .ok a
  | .error e _ => .error e

/-- The objects of the leaves at and below a page. -/
def objectsBelow (t : Btree size) : Nat → Nat → Scan PageObject
  | 0, _ => .fail overflowPanic
  | fuel + 1, pageNumber =>
      match t.pages[pageNumber]? with
      | none => .fail indexPanic
      | some page =>
          match page.kind with
          | .leaf => ⟨page.objects, none⟩
          | .notLeaf =>
              .concat (page.objects.map fun o => objectsBelow t fuel (target o))

/-- The objects after the leaf of a path: those below the pointers that come
after the one that the path goes through, from the lowest page up. -/
def objectsAfter (t : Btree size) (steps : List (Nat × Nat)) : Scan PageObject :=
  .concat (steps.map fun (pageNumber, index) =>
    match t.pages[pageNumber]? with
    | none => .fail indexPanic
    | some page => .concat ((page.objects.drop (index + 1)).map fun o =>
        objectsBelow t maxPages (target o)))

/-- The objects from `min` to `max`, both inclusive. -/
def rangeObjects (t : Btree size) (min max : Bytes) : Scan PageObject :=
  if t.pages = [] then .nil
  else
    match searchPage min t with
    | .error e _ => .fail e
    | .ok (path, depthIterator) _ =>
        match path.getLast?.bind fun n => t.pages[n]? with
        | none => .fail indexPanic
        | some leaf =>
            let first := leaf.objects.drop (leaf.objects.countP (·.key < min))
            let objects := Scan.append ⟨first, none⟩
              (objectsAfter t (path.zip depthIterator).reverse)
            (objects.takeWhile (·.key ≤ max)).map fun o =>
              if o.isBlobRef then eval (readBlob o) t else .ok o

end Btree
end Vsql
