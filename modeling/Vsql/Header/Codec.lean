import Mathlib.Data.List.Induction
import Vsql.Header
import Vsql.Rows.Contents

/-!
# The header as it is in the file

A header is read field by field.  The versions of the file format are checked before the
rest of the header is read, the size of a page after it.
-/

namespace Vsql

open Foundation
open Foundation.Reader
open Rows

/-- The fields as wide as the file has them. -/
structure FileHeader where
  readVersion : UInt16
  writeVersion : UInt16
  schemaVersion : Int32
  pageSize : Int32
  rootPage : Int32
  transactionId : UInt64
  rowId : UInt64
  activeTransactionIds : TransactionIds
  tableId : UInt64
  indexId : UInt64
  reserved : Bytes
  tids_lt : ∀ tid ∈ activeTransactionIds.tids, tid < 2 ^ 64
  length_reserved : reserved.length = headerSize - headerReservedOffset

namespace FileHeader

def fieldBytes (h : FileHeader) : Bytes :=
  writeU16 h.readVersion.toNat ++ writeU16 h.writeVersion.toNat ++
    writeInt 4 h.schemaVersion.toInt ++ writeInt 4 h.pageSize.toInt ++
    writeInt 4 h.rootPage.toInt ++ writeU64 h.transactionId.toNat ++ writeU64 h.rowId.toNat ++
    h.activeTransactionIds.tids.flatMap writeU64 ++ writeU64 h.tableId.toNat ++
    writeU64 h.indexId.toNat ++ h.reserved

def bytes (h : FileHeader) : Bytes := headerMagic ++ h.fieldBytes

end FileHeader

/-! ## Reading -/

def readUInt16 : ByteReader UInt16 := do
  let n ← readNat 2
  pure (UInt16.ofNat n)

def readInt32 : ByteReader Int32 := do
  let x ← readInt 4
  pure (Int32.ofInt x)

def readUInt64 : ByteReader UInt64 := do
  let n ← readNat 8
  pure (UInt64.ofNat n)

def readTids : (n : Nat) →
    ByteReader {tids : List Nat // tids.length = n ∧ ∀ tid ∈ tids, tid < 2 ^ 64}
  | 0 => pure ⟨[], rfl, by simp⟩
  | n + 1 => do
      let tid ← readUInt64
      let rest ← readTids n
      pure ⟨tid.toNat :: rest.val, by simp [rest.property.1],
        List.forall_mem_cons.2 ⟨tid.toNat_lt, rest.property.2⟩⟩

def readReserved (n : Nat) : ByteReader {data : Bytes // data.length = n} := fun input =>
  if h : n ≤ input.length then .ok (⟨input.take n, List.length_take_of_le h⟩, input.drop n)
  else .error pastEnd

def readFields : ByteReader FileHeader := do
  let readVersion ← readUInt16
  let writeVersion ← readUInt16
  if readVersion.toNat > fileFormatVersion then
    throw (sqlstate0A000 (s!"database needs file format {readVersion.toNat} to be read, but " ++
      s!"this version of vsql only supports up to {fileFormatVersion}, upgrade vsql to open it"))
  else if readVersion.toNat < oldestFileFormatVersion then
    throw (sqlstate0A000 (s!"database uses file format {readVersion.toNat}, which is older " ++
      s!"than this version of vsql supports ({oldestFileFormatVersion}), you will need to " ++
      "recreate it"))
  else do
    let schemaVersion ← readInt32
    let pageSize ← readInt32
    let rootPage ← readInt32
    let transactionId ← readUInt64
    let rowId ← readUInt64
    let tids ← readTids transactionSlots
    let tableId ← readUInt64
    let indexId ← readUInt64
    let reserved ← readReserved (headerSize - headerReservedOffset)
    if pageSize.toInt ≤ pageHeaderSize ∨ pageSize.toInt > maxPageSize then
      throw (sqlstateXX001 s!"invalid page size {pageSize.toInt}")
    else
      pure { readVersion, writeVersion, schemaVersion, pageSize, rootPage, transactionId, rowId
             activeTransactionIds := .ofSlots tids.val tids.property.1
             tableId, indexId
             reserved := reserved.val
             tids_lt := tids.property.2
             length_reserved := reserved.property }

def newHeaderFromBytes (data : Bytes) : Except Failure FileHeader := do
  if data.length < headerSize ∨ data.take headerMagic.length ≠ headerMagic then
    throw (sqlstateXX001 ("not a vsql database, or it was created by a version of vsql before " ++
      "the file format had a magic number"))
  else
    let (header, _) ← readFields.run (data.drop headerMagic.length)
    pure header

/-! ## Numbers -/

theorem bigEndian_ofBigEndian (data : Bytes) :
    bigEndian data.length (ofBigEndian data) = data := by
  induction data using List.reverseRecOn with
  | nil => rfl
  | append_singleton data b ih =>
      have hb := b.toNat_lt
      have hdiv : (ofBigEndian data * 256 + b.toNat) / 256 = ofBigEndian data := by omega
      have hmod : (ofBigEndian data * 256 + b.toNat) % 256 = b.toNat := by omega
      rw [List.length_append, List.length_singleton, ofBigEndian_append, bigEndian, hdiv, hmod, ih,
        UInt8.ofNat_toNat]

theorem writeInt_signed {width n : Nat} (h : n < 256 ^ width) :
    writeInt width (signed width n) = bigEndian width n := by
  have hcast : ((256 : Int) ^ width) = ((256 ^ width : Nat) : Int) := by simp
  have hmod : (signed width n % 256 ^ width).toNat = n := by
    unfold signed
    rw [hcast]
    split
    · rw [Int.emod_eq_of_lt (by omega) (by omega)]
      omega
    · rw [Int.sub_emod_right, Int.emod_eq_of_lt (by omega) (by omega)]
      omega
  rw [writeInt, hmod]

/-! ## One field -/

/-- The field is read back from its bytes, and writing it gives the bytes that were read. -/
structure Field {α : Type} (r : ByteReader α) (write : α → Bytes) : Prop where
  reads : ∀ a, Reads r (write a) a
  restores : Restores [] r write

theorem restores_bytes {width : Nat} {α : Type} {f : Bytes → α} {write : α → Bytes}
    (h : ∀ data, data.length = width → write (f data) = data) :
    Restores [] (do let data ← readU8s width; pure (f data)) write := by
  intro input a rest hrun
  change (readU8s width input >>= fun p => .ok (f p.1, p.2)) = _ at hrun
  unfold readU8s take at hrun
  split at hrun
  · next hwidth =>
      cases hrun
      rw [h _ (List.length_take_of_le hwidth)]
      exact (List.take_append_drop width input).symm
  · cases hrun

theorem writeNat_ofBigEndian {width : Nat} {data : Bytes} (h : data.length = width) :
    bigEndian width (ofBigEndian data) = data := by
  subst h
  exact bigEndian_ofBigEndian data

theorem field_readUInt16 : Field readUInt16 fun n => writeU16 n.toNat where
  reads n := by
    have hread := (reads_readNat (by simpa using n.toNat_lt : n.toNat < 256 ^ 2)).bind_pure
      (f := UInt16.ofNat)
    rwa [UInt16.ofNat_toNat] at hread
  restores := by
    simp only [readUInt16, readNat, bind_assoc, pure_bind]
    apply restores_bytes
    intro data hdata
    have hlt := ofBigEndian_lt data
    rw [hdata] at hlt
    rw [UInt16.toNat_ofNat_of_lt' (by simpa using hlt)]
    exact writeNat_ofBigEndian hdata

theorem field_readUInt64 : Field readUInt64 fun n => writeU64 n.toNat where
  reads n := by
    have hread := (reads_readNat (by simpa using n.toNat_lt : n.toNat < 256 ^ 8)).bind_pure
      (f := UInt64.ofNat)
    rwa [UInt64.ofNat_toNat] at hread
  restores := by
    simp only [readUInt64, readNat, bind_assoc, pure_bind]
    apply restores_bytes
    intro data hdata
    have hlt := ofBigEndian_lt data
    rw [hdata] at hlt
    rw [UInt64.toNat_ofNat_of_lt' (by simpa using hlt)]
    exact writeNat_ofBigEndian hdata

theorem signed_bounds {width n : Nat} (h : n < 256 ^ width) :
    -(256 ^ width : Nat) ≤ 2 * signed width n ∧ 2 * signed width n < (256 ^ width : Nat) := by
  unfold signed
  split <;> omega

theorem field_readInt32 : Field readInt32 fun x => writeInt 4 x.toInt where
  reads x := by
    have hlow := x.le_toInt
    have hhigh := x.toInt_lt
    have hread := (reads_readInt (by omega : -(256 ^ 4 : Nat) ≤ 2 * x.toInt) (by omega)).bind_pure
      (f := Int32.ofInt)
    rwa [Int32.ofInt_toInt] at hread
  restores := by
    simp only [readInt32, readInt, readNat, bind_assoc, pure_bind]
    apply restores_bytes
    intro data hdata
    have hlt := ofBigEndian_lt data
    rw [hdata] at hlt
    have hbounds := signed_bounds hlt
    rw [Int32.toInt_ofInt_of_le (by omega) (by omega), writeInt_signed hlt]
    exact writeNat_ofBigEndian hdata

theorem field_readTids (n : Nat) :
    Field (readTids n) fun tids => tids.val.flatMap writeU64 where
  reads := by
    induction n with
    | zero =>
        rintro ⟨tids, hlength, hlt⟩
        cases List.length_eq_zero_iff.1 hlength
        exact reads_pure _
    | succ n ih =>
        rintro ⟨tids, hlength, hlt⟩
        cases tids with
        | nil => cases hlength
        | cons tid tids =>
            have htid : (UInt64.ofNat tid).toNat = tid :=
              UInt64.toNat_ofNat_of_lt' (hlt tid (List.mem_cons_self ..))
            have hfirst := field_readUInt64.reads (UInt64.ofNat tid)
            rw [htid] at hfirst
            have hrest := ih ⟨tids, by simpa using hlength,
              fun tid h => hlt tid (List.mem_cons_of_mem _ h)⟩
            apply hfirst.bind
            apply hrest.bind_nil
            intro input
            exact congrArg (fun tids => Except.ok (tids, input))
              (Subtype.ext (congrArg (· :: tids) htid))
  restores := by
    induction n with
    | zero =>
        intro input tids rest hrun
        cases hrun
        rfl
    | succ n ih =>
        apply Restores.bind field_readUInt64.restores
        intro tid
        apply Restores.bind ih
        intro rest
        apply restores_pure
        rfl

theorem field_readReserved (n : Nat) : Field (readReserved n) Subtype.val where
  reads := by
    rintro ⟨data, rfl⟩ rest
    rw [readReserved, dif_pos (by simp)]
    simp
  restores := by
    intro input data rest hrun
    unfold readReserved at hrun
    split at hrun
    · cases hrun
      exact (List.take_append_drop n input).symm
    · cases hrun

/-! ## The header -/

namespace FileHeader

/-- The header says that this version of vsql can read the file. -/
structure Openable (h : FileHeader) : Prop where
  readVersion : oldestFileFormatVersion ≤ h.readVersion.toNat ∧
    h.readVersion.toNat ≤ fileFormatVersion
  pageSize : pageHeaderSize < h.pageSize.toInt ∧ h.pageSize.toInt ≤ maxPageSize
  slotEnd : h.activeTransactionIds.slotEnd =
    TransactionIds.updateEnd h.activeTransactionIds.tids

theorem restores_readFields : Restores [] readFields fieldBytes := by
  apply Restores.bind field_readUInt16.restores
  intro readVersion
  apply Restores.bind field_readUInt16.restores
  intro writeVersion
  apply Restores.ite (restores_throw _ _ _)
  apply Restores.ite (restores_throw _ _ _)
  apply Restores.bind field_readInt32.restores
  intro schemaVersion
  apply Restores.bind field_readInt32.restores
  intro pageSize
  apply Restores.bind field_readInt32.restores
  intro rootPage
  apply Restores.bind field_readUInt64.restores
  intro transactionId
  apply Restores.bind field_readUInt64.restores
  intro rowId
  apply Restores.bind (field_readTids transactionSlots).restores
  intro tids
  apply Restores.bind field_readUInt64.restores
  intro tableId
  apply Restores.bind field_readUInt64.restores
  intro indexId
  apply Restores.bind (field_readReserved _).restores
  intro reserved
  apply Restores.ite (restores_throw _ _ _)
  apply restores_pure
  simp only [fieldBytes, TransactionIds.ofSlots, List.nil_append]

theorem gives_readFields : Gives Openable readFields := by
  apply Gives.bind
  intro readVersion
  apply Gives.bind
  intro writeVersion
  refine Gives.ite (fun _ => gives_throw _ _) fun hnew => ?_
  refine Gives.ite (fun _ => gives_throw _ _) fun hold => ?_
  apply Gives.bind
  intro schemaVersion
  apply Gives.bind
  intro pageSize
  apply Gives.bind
  intro rootPage
  apply Gives.bind
  intro transactionId
  apply Gives.bind
  intro rowId
  apply Gives.bind
  intro tids
  apply Gives.bind
  intro tableId
  apply Gives.bind
  intro indexId
  apply Gives.bind
  intro reserved
  refine Gives.ite (fun _ => gives_throw _ _) fun hsize => ?_
  apply gives_pure
  exact ⟨⟨by dsimp only; omega, by dsimp only; omega⟩,
    ⟨by dsimp only; omega, by dsimp only; omega⟩, rfl⟩

theorem reads_readFields {h : FileHeader} (hopen : h.Openable) :
    Reads readFields h.fieldBytes h := by
  obtain ⟨⟨hold, hnew⟩, ⟨hsmall, hlarge⟩, hslotEnd⟩ := hopen
  have htids := (field_readTids transactionSlots).reads
    ⟨h.activeTransactionIds.tids, h.activeTransactionIds.length_tids, h.tids_lt⟩
  have hreserved := (field_readReserved _).reads ⟨h.reserved, h.length_reserved⟩
  have hslots : TransactionIds.ofSlots h.activeTransactionIds.tids
      h.activeTransactionIds.length_tids = h.activeTransactionIds := by
    unfold TransactionIds.ofSlots
    simp only [← hslotEnd]
  simp only [fieldBytes, List.append_assoc]
  apply (field_readUInt16.reads h.readVersion).bind
  apply (field_readUInt16.reads h.writeVersion).bind
  rw [if_neg (by omega), if_neg (by omega)]
  apply (field_readInt32.reads h.schemaVersion).bind
  apply (field_readInt32.reads h.pageSize).bind
  apply (field_readInt32.reads h.rootPage).bind
  apply (field_readUInt64.reads h.transactionId).bind
  apply (field_readUInt64.reads h.rowId).bind
  apply htids.bind
  apply (field_readUInt64.reads h.tableId).bind
  apply (field_readUInt64.reads h.indexId).bind
  apply hreserved.bind_nil
  rw [if_neg (by omega)]
  simp only [hslots]
  exact reads_pure h

theorem length_bytes (h : FileHeader) : h.bytes.length = headerSize := by
  have htids : h.activeTransactionIds.tids.length = 256 := h.activeTransactionIds.length_tids
  have hreserved : h.reserved.length = 1992 := h.length_reserved
  have hmagic : headerMagic.length = 8 := rfl
  simp only [bytes, fieldBytes, List.length_append, length_writeU16, length_writeU64, writeInt,
    length_bigEndian, Header.length_flatMap_writeU64, htids, hreserved, hmagic]
  rfl

theorem newHeaderFromBytes_bytes {h : FileHeader} (hopen : h.Openable) :
    newHeaderFromBytes h.bytes = .ok h := by
  have hmagic : h.bytes.take headerMagic.length = headerMagic := by
    rw [bytes, List.take_left]
  rw [newHeaderFromBytes, if_neg (by rw [h.length_bytes, hmagic]; simp), bytes, List.drop_left]
  change (readFields h.fieldBytes >>= fun p => Except.ok p.1) = _
  rw [(reads_readFields hopen).run]
  rfl

theorem of_newHeaderFromBytes {data : Bytes} {h : FileHeader}
    (hread : newHeaderFromBytes data = .ok h) :
    h.Openable ∧ h.bytes = data.take headerSize := by
  unfold newHeaderFromBytes at hread
  split at hread
  · cases hread
  · next hdata =>
      rw [not_or, not_not, Nat.not_lt] at hdata
      obtain ⟨hlength, hmagic⟩ := hdata
      obtain ⟨⟨header, rest⟩, hfields, hrest⟩ := ok_of_bind hread
      cases hrest
      refine ⟨gives_readFields _ _ _ hfields, ?_⟩
      have hdata : headerMagic ++ data.drop headerMagic.length = data := by
        conv_rhs => rw [← List.take_append_drop headerMagic.length data, hmagic]
      have hrestored := restores_readFields _ _ _ hfields
      rw [List.nil_append] at hrestored
      rw [← hdata, hrestored, ← List.append_assoc]
      exact (List.take_left' h.length_bytes).symm

/-! ## The header in memory -/

/-- The header in memory has the numbers of the header in the file. -/
structure Stores (f : FileHeader) (h : Header) : Prop where
  readVersion : f.readVersion.toNat = h.readVersion
  writeVersion : f.writeVersion.toNat = h.writeVersion
  schemaVersion : f.schemaVersion.toInt = h.schemaVersion
  pageSize : f.pageSize.toInt = (h.pageSize : Nat)
  rootPage : f.rootPage.toInt = h.rootPage
  transactionId : f.transactionId.toNat = h.transactionId
  rowId : f.rowId.toNat = h.rowId
  activeTransactionIds : f.activeTransactionIds = h.activeTransactionIds
  tableId : f.tableId.toNat = h.tableId
  indexId : f.indexId.toNat = h.indexId
  reserved : f.reserved = h.reserved

theorem writeInt_natCast {x : Int32} {n : Nat} (h : x.toInt = n) :
    writeInt 4 x.toInt = writeU32 n := by
  have hlt := x.toInt_lt
  have hmod : ((n : Int) % 256 ^ 4).toNat = n := by omega
  rw [h, writeInt, hmod]
  rfl

theorem Stores.bytes {f : FileHeader} {h : Header} (hstores : f.Stores h) :
    f.bytes = h.bytes := by
  simp only [FileHeader.bytes, fieldBytes, Header.bytes, hstores.readVersion,
    hstores.writeVersion, writeInt_natCast hstores.schemaVersion,
    writeInt_natCast hstores.pageSize, writeInt_natCast hstores.rootPage, hstores.transactionId,
    hstores.rowId, hstores.activeTransactionIds, hstores.tableId, hstores.indexId,
    hstores.reserved, List.append_assoc]

end FileHeader
end Vsql
