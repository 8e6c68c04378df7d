import Vsql.Bytes
import Vsql.Mvcc

/-!
# The header of a database file

The header occupies the first 4096 bytes of the file, whatever the page size,
and is followed by the pages.
-/

namespace Vsql

open Foundation

def headerSize : Nat := 4096
def headerReservedOffset : Nat := 2104

/-- The characters of `vsql\r\n\x1a\n`. -/
def headerMagic : Bytes := [0x76, 0x73, 0x71, 0x6c, 0x0d, 0x0a, 0x1a, 0x0a]

def fileFormatVersion : Nat := 2
def oldestFileFormatVersion : Nat := 1

def pageHeaderSize : Nat := 16
def maxPageSize : Nat := 65535

/-- The sizes that `check_page_size` accepts. -/
abbrev PageSize := {n : Nat // pageHeaderSize < n ∧ n ≤ maxPageSize}

def PageSize.least : PageSize := ⟨17, by decide⟩

structure Header where
  readVersion : Nat
  writeVersion : Nat
  schemaVersion : Nat
  pageSize : PageSize
  rootPage : Nat
  transactionId : Nat
  rowId : Nat
  activeTransactionIds : TransactionIds
  tableId : Nat
  indexId : Nat
  reserved : Bytes
  length_reserved : reserved.length = headerSize - headerReservedOffset
  deriving DecidableEq

namespace Header

def new (pageSize : PageSize) : Header where
  readVersion := oldestFileFormatVersion
  writeVersion := oldestFileFormatVersion
  schemaVersion := 0
  pageSize := pageSize
  rootPage := 0
  transactionId := 2
  rowId := 0
  activeTransactionIds := .empty
  tableId := 0
  indexId := 0
  reserved := List.replicate (headerSize - headerReservedOffset) 0
  length_reserved := List.length_replicate

def isWritable (h : Header) : Bool := h.writeVersion ≤ fileFormatVersion

def bytes (h : Header) : Bytes :=
  headerMagic ++ writeU16 h.readVersion ++ writeU16 h.writeVersion ++
    writeU32 h.schemaVersion ++ writeU32 h.pageSize ++ writeU32 h.rootPage ++
    writeU64 h.transactionId ++ writeU64 h.rowId ++
    h.activeTransactionIds.tids.flatMap writeU64 ++
    writeU64 h.tableId ++ writeU64 h.indexId ++ h.reserved

theorem length_flatMap_writeU64 (tids : List Nat) :
    (tids.flatMap writeU64).length = 8 * tids.length := by
  induction tids with
  | nil => rfl
  | cons tid tids ih =>
      simp [ih]
      omega

@[simp] theorem length_bytes (h : Header) : h.bytes.length = headerSize := by
  have htids : h.activeTransactionIds.tids.length = 256 :=
    h.activeTransactionIds.length_tids
  have hreserved : h.reserved.length = 1992 := h.length_reserved
  have hmagic : headerMagic.length = 8 := rfl
  simp only [bytes, List.length_append, length_writeU16, length_writeU32,
    length_writeU64, length_flatMap_writeU64, htids, hreserved, hmagic]
  rfl

end Header
end Vsql
