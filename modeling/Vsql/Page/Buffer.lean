import Vsql.Page
import Vsql.Pager
import Vsql.Rows.Contents

/-!
# The bytes of a page

The objects of a page are one after the other in a buffer of a fixed length.  They are
read in two ways: `objects` parses them, and `objectsInPlace` computes where the fields of
each of them are.
-/

namespace Vsql

open Foundation
open Foundation.Reader
open Rows

/-! ## One object -/

namespace PageObject

/-- What the fields of an object are written in can hold them. -/
structure Encodable (o : PageObject) : Prop where
  key : o.key.length < 2 ^ 15
  tid : o.tid < 2 ^ 64
  xid : o.xid < 2 ^ 64

theorem length_pos (o : PageObject) : 0 < o.length := by
  simp only [length, pageObjectPrefixLength]
  omega

end PageObject

/-- The length of the object, and the object. -/
def parsePageObject : ByteReader (Int × PageObject) := do
  let totalLen ← readInt 4
  let tid ← readNat 8
  let xid ← readNat 8
  let keyLen ← readInt 2
  let key ← readLength keyLen
  let isBlobRef ← readBool
  let value ← readLength (totalLen - pageObjectPrefixLength - keyLen)
  pure (totalLen, ⟨key, value, isBlobRef, tid, xid⟩)

theorem reads_readInt_bigEndian {width n : Nat} (h : 2 * n < 256 ^ width) :
    Reads (readInt width) (bigEndian width n) n := by
  have hread := (reads_readNat (by omega : n < 256 ^ width)).bind_pure (f := signed width)
  rwa [signed, if_pos h] at hread

theorem reads_parsePageObject {o : PageObject} (h : o.Encodable) (hlength : o.length < 2 ^ 31) :
    Reads parsePageObject o.bytes (o.length, o) := by
  have hkey := h.key
  have hvalue : (o.length : Int) - pageObjectPrefixLength - o.key.length = o.value.length := by
    simp only [PageObject.length]
    omega
  simp only [PageObject.bytes, List.append_assoc]
  apply Reads.bind (reads_readInt_bigEndian (by omega))
  apply Reads.bind (reads_readNat (by simpa using h.tid))
  apply Reads.bind (reads_readNat (by simpa using h.xid))
  apply Reads.bind (reads_readInt_bigEndian (by omega))
  apply Reads.bind (reads_readLength o.key)
  apply Reads.bind (reads_readBool o.isBlobRef)
  rw [hvalue]
  apply Reads.bind_nil (reads_readLength o.value)
  exact reads_pure _

/-- The length of a longer key is read back as a negative number. -/
theorem parsePageObject_of_long_key {o : PageObject} (hkey : 2 ^ 15 ≤ o.key.length)
    (hlow : o.key.length < 2 ^ 16) (htid : o.tid < 2 ^ 64) (hxid : o.xid < 2 ^ 64)
    (hlength : o.length < 2 ^ 31) (rest : Bytes) :
    parsePageObject (o.bytes ++ rest) = .error pastEnd := by
  have hread := (reads_readNat (by omega : o.key.length < 256 ^ 2)).bind_pure
    (f := signed 2)
  rw [signed, if_neg (by omega)] at hread
  simp only [PageObject.bytes, List.append_assoc]
  apply Reads.bind_error (reads_readInt_bigEndian (by omega))
  apply Reads.bind_error (reads_readNat (by simpa using htid))
  apply Reads.bind_error (reads_readNat (by simpa using hxid))
  apply Reads.bind_error hread
  rw [readLength, if_pos (by omega)]
  rfl

/-! ## Reading the objects -/

def PageKind.byte : PageKind → UInt8
  | .leaf => 0
  | .notLeaf => 1

namespace PageImage

variable {size : PageSize}

def new (kind : UInt8) : PageImage size where
  kind := kind
  used := UInt16.ofNat pageHeaderSize
  data := List.replicate (size - pageHeaderSize) 0
  length_data := List.length_replicate

/-- An object that is read has at least 23 bytes, so that there are more steps than objects. -/
def objectsFrom (data : Bytes) (stop : Nat) : Nat → Nat → Except Failure (List PageObject)
  | 0, _ => .error pastEnd
  | fuel + 1, n =>
      if n < stop then do
        if data.length < n then throw pastEnd
        let ((m, object), _) ← parsePageObject.run (data.drop n)
        let objects ← objectsFrom data stop fuel (n + m.toNat)
        pure (object :: objects)
      else pure []

def objects (page : PageImage size) : Except Failure (List PageObject) :=
  objectsFrom page.data (page.used.toNat - pageHeaderSize) (page.used.toNat + 1) 0

def bigEndianAt (width : Nat) (data : Bytes) (offset : Nat) : Except Failure Nat :=
  if offset + width ≤ data.length then .ok (ofBigEndian ((data.drop offset).take width))
  else .error pastEnd

def sliceAt (data : Bytes) (start : Nat) (stop : Int) : Except Failure Bytes :=
  if start ≤ stop ∧ stop ≤ data.length then .ok ((data.drop start).take (stop - start).toNat)
  else .error pastEnd

def objectAt (data : Bytes) (offset : Nat) : Except Failure (Int × PageObject) := do
  let totalLen := signed 4 (← bigEndianAt 4 data offset)
  let keyLen ← bigEndianAt 2 data (offset + 20)
  let keyAt := offset + pageObjectPrefixLength - 1
  let valueAt := keyAt + keyLen + 1
  let key ← sliceAt data keyAt (valueAt - 1 : Nat)
  let value ← sliceAt data valueAt (offset + totalLen)
  let isBlobRef ← bigEndianAt 1 data (valueAt - 1)
  let tid ← bigEndianAt 8 data (offset + 4)
  let xid ← bigEndianAt 8 data (offset + 12)
  pure (totalLen, ⟨key, value, isBlobRef != 0, tid, xid⟩)

def objectsInPlaceFrom (data : Bytes) (stop : Nat) :
    Nat → Nat → Except Failure (List PageObject)
  | 0, _ => .error pastEnd
  | fuel + 1, offset =>
      if offset < stop then do
        let (totalLen, object) ← objectAt data offset
        let objects ← objectsInPlaceFrom data stop fuel (offset + totalLen.toNat)
        pure (object :: objects)
      else pure []

def objectsInPlace (page : PageImage size) : Except Failure (List PageObject) :=
  objectsInPlaceFrom page.data (page.used.toNat - pageHeaderSize) (page.used.toNat + 1) 0

/-! ## What a page holds -/

/-- The page has these objects in its buffer. -/
structure Holds (page : PageImage size) (kind : UInt8) (objects : List PageObject) : Prop where
  kind : page.kind = kind
  used : page.used.toNat = pageHeaderSize + objectsSize objects
  written : objects.flatMap PageObject.bytes <+: page.data
  encodable : ∀ o ∈ objects, o.Encodable
  sorted : objects.Pairwise fun a b => a.key ≤ b.key

theorem length_flatMap_bytes (objects : List PageObject) :
    (objects.flatMap PageObject.bytes).length = objectsSize objects := by
  induction objects with
  | nil => rfl
  | cons o objects ih => simp [ih]

theorem length_le_objectsSize {o : PageObject} {objects : List PageObject} (h : o ∈ objects) :
    o.length ≤ objectsSize objects := by
  obtain ⟨pre, post, rfl⟩ := List.append_of_mem h
  rw [objectsSize_append, objectsSize_cons]
  omega

theorem length_le_size (objects : List PageObject) : objects.length ≤ objectsSize objects := by
  induction objects with
  | nil => simp
  | cons o objects ih =>
      simp only [List.length_cons, objectsSize_cons, PageObject.length, pageObjectPrefixLength]
      omega

theorem Holds.length_lt {page : PageImage size} {kind : UInt8} {objects : List PageObject}
    (h : page.Holds kind objects) {o : PageObject} (ho : o ∈ objects) : o.length < 2 ^ 31 := by
  have hused := h.used
  have hle := length_le_objectsSize ho
  have hlt := page.used.toNat_lt
  omega

theorem holds_new (kind : UInt8) : (new kind : PageImage size).Holds kind [] where
  kind := rfl
  used := by simp [new, pageHeaderSize]
  written := List.nil_prefix
  encodable := by simp
  sorted := .nil

/-! ### Reading -/

/-- The bytes `s` start at `offset`. -/
def At (data : Bytes) (offset : Nat) (s : Bytes) : Prop :=
  ∃ pre post, data = pre ++ (s ++ post) ∧ offset = pre.length

theorem At.append {data : Bytes} {offset : Nat} {s t : Bytes} (h : At data offset (s ++ t)) :
    At data offset s ∧ At data (offset + s.length) t := by
  obtain ⟨pre, post, rfl, rfl⟩ := h
  constructor
  · exact ⟨pre, t ++ post, by simp, rfl⟩
  · exact ⟨pre ++ s, post, by simp, by simp⟩

theorem At.bigEndianAt {data : Bytes} {offset width n : Nat}
    (h : At data offset (bigEndian width n)) (hn : n < 256 ^ width) :
    bigEndianAt width data offset = .ok n := by
  obtain ⟨pre, post, rfl, rfl⟩ := h
  have htake : (bigEndian width n ++ post).take width = bigEndian width n :=
    List.take_left' (length_bigEndian width n)
  rw [PageImage.bigEndianAt, if_pos (by simp), List.drop_left, htake, ofBigEndian_bigEndian hn]

theorem At.sliceAt {data : Bytes} {offset : Nat} {s : Bytes} (h : At data offset s) (stop : Int)
    (hstop : stop = offset + s.length) : sliceAt data offset stop = .ok s := by
  obtain ⟨pre, post, rfl, rfl⟩ := h
  subst hstop
  have htake : ((pre.length : Int) + s.length - pre.length).toNat = s.length := by omega
  rw [PageImage.sliceAt, if_pos (by simp), List.drop_left, htake, List.take_left]

theorem At.objectAt {data : Bytes} {offset : Nat} {o : PageObject} (h : At data offset o.bytes)
    (hencodable : o.Encodable) (hlength : o.length < 2 ^ 31) :
    objectAt data offset = .ok ((o.length : Int), o) := by
  have hkey := hencodable.key
  simp only [PageObject.bytes, List.append_assoc] at h
  obtain ⟨hat, h⟩ := h.append
  have htotal := hat.bigEndianAt (by omega)
  obtain ⟨hat, h⟩ := h.append
  have htid := hat.bigEndianAt (by simpa using hencodable.tid)
  obtain ⟨hat, h⟩ := h.append
  have hxid := hat.bigEndianAt (by simpa using hencodable.xid)
  obtain ⟨hat, h⟩ := h.append
  have hkeyLen := hat.bigEndianAt (by omega)
  obtain ⟨hkeyAt, h⟩ := h.append
  obtain ⟨hblob, hvalueAt⟩ := h.append
  have hsigned : signed 4 o.length = o.length := by rw [signed, if_pos (by omega)]
  have hbit : [if o.isBlobRef then 1 else 0] = bigEndian 1 o.isBlobRef.toNat := by
    cases o.isBlobRef <;> rfl
  rw [hbit] at hblob hvalueAt
  have hisBlobRef := hblob.bigEndianAt (by cases o.isBlobRef <;> decide)
  have hvalue := hvalueAt.sliceAt (offset + (o.length : Int)) (by
    simp only [PageObject.length, pageObjectPrefixLength, length_writeU32, length_writeU64,
      length_writeU16, length_bigEndian]
    omega)
  have hkeyBytes := hkeyAt.sliceAt (offset + 22 + o.key.length : Nat) (by
    simp only [length_writeU32, length_writeU64, length_writeU16]
    omega)
  simp only [length_writeU32, length_writeU64, length_writeU16, length_bigEndian,
    Nat.add_assoc, Nat.reduceAdd] at htid hxid hkeyLen hkeyBytes hisBlobRef hvalue
  have hlast : offset + pageObjectPrefixLength - 1 = offset + 22 := rfl
  have hblobBit : (o.isBlobRef.toNat != 0) = o.isBlobRef := by cases o.isBlobRef <;> rfl
  have hbefore : offset + (22 + (o.key.length + 1)) - 1 = offset + (22 + o.key.length) := rfl
  unfold PageImage.objectAt
  simp only [htotal, hsigned, hkeyLen, hlast, Nat.add_assoc, hbefore, hkeyBytes, hvalue,
    hisBlobRef, hblobBit, htid, hxid, bind, Except.bind]
  rfl

theorem objectsFrom_eq {objects : List PageObject} (hencodable : ∀ o ∈ objects, o.Encodable)
    (hlength : ∀ o ∈ objects, o.length < 2 ^ 31) {data : Bytes} {n stop fuel : Nat}
    (hat : At data n (objects.flatMap PageObject.bytes))
    (hstop : stop = n + objectsSize objects) (hfuel : objects.length < fuel) :
    objectsFrom data stop fuel n = .ok objects := by
  induction objects generalizing n fuel with
  | nil =>
      obtain ⟨fuel, rfl⟩ := Nat.exists_eq_add_of_lt hfuel
      rw [objectsFrom, if_neg (by simp at hstop; omega)]
      rfl
  | cons o objects ih =>
      obtain ⟨fuel, rfl⟩ : ∃ k, fuel = k + 1 := ⟨fuel - 1, by omega⟩
      rw [objectsSize_cons] at hstop
      obtain ⟨hhere, hafter⟩ := (List.flatMap_cons ▸ hat).append
      rw [PageObject.length_bytes] at hafter
      have hnext := ih (fun o ho => hencodable o (List.mem_cons_of_mem _ ho))
        (fun o ho => hlength o (List.mem_cons_of_mem _ ho)) hafter
        (by omega) (Nat.lt_of_succ_lt_succ hfuel)
      obtain ⟨pre, post, rfl, rfl⟩ := hhere
      have hread := reads_parsePageObject (hencodable o (List.mem_cons_self ..))
        (hlength o (List.mem_cons_self ..)) post
      have hpos := o.length_pos
      rw [objectsFrom, if_pos (by omega), if_neg (by simp), List.drop_left]
      change (parsePageObject (o.bytes ++ post) >>= fun _ => _) = _
      rw [hread]
      change (objectsFrom _ stop fuel (pre.length + o.length) >>= fun _ => _) = _
      rw [hnext]
      rfl

theorem objectsInPlaceFrom_eq {objects : List PageObject}
    (hencodable : ∀ o ∈ objects, o.Encodable) (hlength : ∀ o ∈ objects, o.length < 2 ^ 31)
    {data : Bytes} {offset stop fuel : Nat}
    (hat : At data offset (objects.flatMap PageObject.bytes))
    (hstop : stop = offset + objectsSize objects) (hfuel : objects.length < fuel) :
    objectsInPlaceFrom data stop fuel offset = .ok objects := by
  induction objects generalizing offset fuel with
  | nil =>
      obtain ⟨fuel, rfl⟩ := Nat.exists_eq_add_of_lt hfuel
      rw [objectsInPlaceFrom, if_neg (by simp at hstop; omega)]
      rfl
  | cons o objects ih =>
      obtain ⟨fuel, rfl⟩ : ∃ k, fuel = k + 1 := ⟨fuel - 1, by omega⟩
      rw [objectsSize_cons] at hstop
      obtain ⟨hhere, hafter⟩ := (List.flatMap_cons ▸ hat).append
      rw [PageObject.length_bytes] at hafter
      have hread := hhere.objectAt (hencodable o (List.mem_cons_self ..))
        (hlength o (List.mem_cons_self ..))
      have hnext := ih (fun o ho => hencodable o (List.mem_cons_of_mem _ ho))
        (fun o ho => hlength o (List.mem_cons_of_mem _ ho)) hafter
        (by omega) (Nat.lt_of_succ_lt_succ hfuel)
      have hpos := o.length_pos
      rw [objectsInPlaceFrom, if_pos (by omega), hread]
      change (objectsInPlaceFrom data stop fuel (offset + o.length) >>= fun _ => _) = _
      rw [hnext]
      rfl

theorem Holds.at {page : PageImage size} {kind : UInt8} {os : List PageObject}
    (h : page.Holds kind os) :
    At page.data 0 (os.flatMap PageObject.bytes) := by
  obtain ⟨post, hpost⟩ := h.written
  exact ⟨[], post, hpost.symm, rfl⟩

theorem Holds.fuel {page : PageImage size} {kind : UInt8} {os : List PageObject}
    (h : page.Holds kind os) :
    os.length < page.used.toNat + 1 := by
  have hused := h.used
  have hle := length_le_size os
  omega

theorem Holds.objects {page : PageImage size} {kind : UInt8} {os : List PageObject}
    (h : page.Holds kind os) :
    page.objects = .ok os := by
  have hused := h.used
  exact objectsFrom_eq h.encodable (fun o ho => h.length_lt ho) h.at (by omega) h.fuel

theorem Holds.objectsInPlace {page : PageImage size} {kind : UInt8} {os : List PageObject}
    (h : page.Holds kind os) :
    page.objectsInPlace = .ok os := by
  have hused := h.used
  exact objectsInPlaceFrom_eq h.encodable (fun o ho => h.length_lt ho) h.at (by omega) h.fuel

end PageImage
end Vsql
