import Vsql.Walk

/-!
# The iterator of a range

`PageIterator` keeps the path to a leaf and a position for each page of it.  When a leaf is
done it climbs to a page that has another pointer and goes down to the next leaf.
-/

namespace Vsql

open Foundation

/-- The last page of the path comes first, and the last position.  `parents` has the objects of
the pages of the path before the leaf, as far as they were read. -/
structure PageIterator where
  min : Bytes
  max : Bytes
  objects : List PageObject
  path : List Nat
  depthIterator : List Nat
  parents : List (List PageObject)
  err : Option Failure
  deriving DecidableEq

namespace PageIterator

variable {size : PageSize}

/-- The position in the last page of the path. -/
def position (iter : PageIterator) : Nat := iter.depthIterator.headD 0

/-- Reads the pages of the path from the first one that was not read. -/
def readParents (t : Btree size) (path : List Nat) (depth : Nat)
    (parents : List (List PageObject)) : EStateM.Result Failure (List (List PageObject)) Unit :=
  if parents.length ≤ depth then
    match path.reverse[parents.length]?.bind fun n => t.pages[n]? with
    | none => .error Btree.indexPanic parents
    | some page => readParents t path depth (page.objects :: parents)
  else .ok () parents
termination_by depth + 1 - parents.length

/-- `parent` of the last page of the path. -/
def parent (t : Btree size) (iter : PageIterator) :
    EStateM.Result Failure PageIterator (List PageObject) :=
  match readParents t iter.path (iter.path.length - 1) iter.parents with
  | .error e parents => .error e { iter with parents := parents }
  | .ok () parents => .ok (parents.headD []) { iter with parents := parents }

/-- The page above the last one, at its next pointer. -/
def rollUp (iter : PageIterator) : PageIterator :=
  let path := iter.path.tail
  { iter with
    path := path
    depthIterator := iter.depthIterator.tail.modifyHead (· + 1)
    parents := iter.parents.drop (iter.parents.length - path.length) }

/-- Climbs to a page that has another pointer.  There is none if the result is `false`. -/
def climb (t : Btree size) (iter : PageIterator) : EStateM.Result Failure PageIterator Bool :=
  if _hroot : iter.path.length ≤ 1 then .ok false iter
  else
    match _hparent : parent t iter.rollUp with
    | .error e iter => .error e iter
    | .ok objects iter' =>
        if iter'.position < objects.length then .ok true iter' else climb t iter'
termination_by iter.path.length
decreasing_by
  have hpath : iter'.path = iter.path.tail := by
    unfold parent at _hparent
    split at _hparent
    · cases _hparent
    · injection _hparent with _ hparent
      rw [← hparent]
      rfl
  rw [hpath, List.length_tail]
  omega

/-- Reads the last page of the path unless it is one of the parents.  It is a leaf if the result
is `true`. -/
def readLast (t : Btree size) (iter : PageIterator) : EStateM.Result Failure PageIterator Bool :=
  if iter.path.length - 1 ≥ iter.parents.length then
    match iter.path.head?.bind fun n => t.pages[n]? with
    | none => .error Btree.indexPanic iter
    | some page =>
        match page.kind with
        | .leaf => .ok true { iter with objects := page.objects }
        | .notLeaf => .ok false { iter with parents := page.objects :: iter.parents }
  else .ok false iter

/-- Goes down to the next leaf. -/
def descend (t : Btree size) : Nat → PageIterator → EStateM.Result Failure PageIterator Unit
  | 0, iter => .error Btree.overflowPanic iter
  | fuel + 1, iter =>
      match readLast t iter with
      | .error e iter => .error e iter
      | .ok true iter => .ok () iter
      | .ok false iter =>
          match iter.parents.head?.bind fun objects => objects[iter.position]? with
          | none => .error Btree.indexPanic iter
          | some o => descend t fuel { iter with
              path := Btree.target o :: iter.path
              depthIterator := 0 :: iter.depthIterator }

/-- Goes on until a leaf that is not done, or nothing if there are more than `fuel` other ones.
The tree has ended if the result is `false`. -/
def skipPages (t : Btree size) : Nat → PageIterator →
    Option (EStateM.Result Failure PageIterator Bool)
  | fuel, iter =>
      if iter.position < iter.objects.length then some (.ok true iter)
      else
        match climb t iter with
        | .error e iter => some (.error e iter)
        | .ok false iter => some (.ok false iter)
        | .ok true iter =>
            match descend t maxPages iter with
            | .error e iter => some (.error e iter)
            | .ok () iter =>
                match fuel with
                | 0 => none
                | fuel + 1 => skipPages t fuel iter

/-- The first time, finds the leaf of `min` and the first object in it that is not below. -/
def start (t : Btree size) (iter : PageIterator) : EStateM.Result Failure PageIterator Unit :=
  if iter.path = [] then
    match Btree.searchPage iter.min t with
    | .error e _ => .error e iter
    | .ok (path, depthIterator) _ =>
        let iter := { iter with
          path := path.reverse
          depthIterator := 0 :: depthIterator.reverse }
        match iter.path.head?.bind fun n => t.pages[n]? with
        | none => .error Btree.indexPanic iter
        | some leaf => .ok () { iter with
            objects := leaf.objects
            depthIterator := leaf.objects.countP (·.key < iter.min) :: iter.depthIterator.tail }
  else .ok () iter

def fail (iter : PageIterator) (err : Failure) : Option PageObject × PageIterator :=
  (none, { iter with err := some err })

/-- The object at the position. -/
def take (t : Btree size) (iter : PageIterator) : Option PageObject × PageIterator :=
  match iter.objects[iter.position]? with
  | none => iter.fail Btree.indexPanic
  | some o =>
      let iter := { iter with depthIterator := iter.depthIterator.modifyHead (· + 1) }
      if iter.max < o.key then (none, iter)
      else if o.isBlobRef then
        match Btree.eval (Btree.readBlob o) t with
        | .ok object => (some object, iter)
        | .error e => iter.fail e
      else (some o, iter)

/-- Nothing if `next` has not ended after going through `fuel` leaves. -/
def next (t : Btree size) (fuel : Nat) (iter : PageIterator) :
    Option (Option PageObject × PageIterator) :=
  if t.pages.length = 0 then some (none, iter)
  else
    match start t iter with
    | .error e iter => some (iter.fail e)
    | .ok () iter =>
        match skipPages t fuel iter with
        | none => none
        | some (.error e iter) => some (iter.fail e)
        | some (.ok false iter) => some (none, iter)
        | some (.ok true iter) => some (iter.take t)

def new (min max : Bytes) : PageIterator := ⟨min, max, [], [], [], [], none⟩

end PageIterator

end Vsql
