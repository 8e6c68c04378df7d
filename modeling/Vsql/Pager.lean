import Vsql.Foundation.OrderedMap
import Vsql.Header

/-!
# Pagers

A pager keeps the pages of the B-tree.  `MemoryPager` keeps them in memory,
with the changes of the current statement in `dirty`; `FilePager` reads them
from the database file, through a cache, and keeps the changes of the current
statement until they go through the write-ahead log.
-/

namespace Vsql

open Foundation

/-! ## Pages as they are in the file -/

/-- The bytes of one page. -/
abbrev Block (size : PageSize) := {data : Bytes // data.length = size}

structure PageImage (size : PageSize) where
  kind : UInt8
  used : UInt16
  data : Bytes
  length_data : data.length = size - pageHeaderSize
  deriving DecidableEq

namespace PageImage

variable {size : PageSize}

def bytes (page : PageImage size) : Block size :=
  ⟨[page.kind, 0] ++ writeU16 page.used.toNat ++ List.replicate 12 0 ++
    page.data, by
      have hsize := size.property.1
      simp [page.length_data, pageHeaderSize] at hsize ⊢
      omega⟩

def ofBytes (buf : Block size) : PageImage size where
  kind := ByteFile.byteAt buf.val 0
  used := UInt16.ofNat (ofBigEndian ((buf.val.drop 2).take 2))
  data := buf.val.drop pageHeaderSize
  length_data := by simp [buf.property]

@[ext] theorem ext {page other : PageImage size} (hkind : page.kind = other.kind)
    (hused : page.used = other.used) (hdata : page.data = other.data) :
    page = other := by
  cases page
  cases other
  simp_all

@[simp] theorem ofBytes_bytes (page : PageImage size) :
    ofBytes page.bytes = page := by
  have hused : page.used.toNat < 2 ^ 16 := page.used.toNat_lt
  ext1
  · simp [ofBytes, bytes, ByteFile.byteAt]
  · simp [ofBytes, bytes, ofBigEndian_writeU16 hused]
  · have hprefix : ([page.kind, 0] ++ writeU16 page.used.toNat ++
        List.replicate 12 (0 : UInt8)).length = pageHeaderSize := by
      simp [pageHeaderSize]
    exact List.drop_left' hprefix

end PageImage

/-! ## In memory -/

structure MemoryPager (P : Type) where
  rootPage : Nat
  pages : List P
  dirty : OrderedMap Nat P
  total : Nat
  savedRootPage : Nat

namespace MemoryPager

variable {P : Type}

/-- Indexing an array out of its range stops the process. -/
def indexPanic : Failure := .panic "array index out of range"

def fetchPage (p : MemoryPager P) (pageNumber : Nat) : Except Failure P :=
  match p.dirty.get? pageNumber with
  | some page => .ok page
  | none =>
      match p.pages[pageNumber]? with
      | some page => .ok page
      | none => .error indexPanic

def storePage (p : MemoryPager P) (pageNumber : Nat) (page : P) :
    MemoryPager P :=
  { p with dirty := p.dirty.set pageNumber page }

def totalPages (p : MemoryPager P) : Nat := p.total

def appendPage (p : MemoryPager P) (page : P) : MemoryPager P × Nat :=
  ({ p with dirty := p.dirty.set p.total page, total := p.total + 1 }, p.total)

def setRootPage (p : MemoryPager P) (pageNumber : Nat) : MemoryPager P :=
  { p with rootPage := pageNumber }

def commit (p : MemoryPager P) : Except Failure (MemoryPager P) := do
  let pages ← (List.range p.total).mapM p.fetchPage
  .ok { p with pages := pages, dirty := .empty, savedRootPage := p.rootPage }

def discard (p : MemoryPager P) : MemoryPager P :=
  { p with dirty := .empty, total := p.pages.length,
           rootPage := p.savedRootPage }

end MemoryPager

/-! ## On disk -/

structure FilePager (size : PageSize) where
  file : Bytes
  totalPages : Nat
  dirty : OrderedMap Nat (Block size)
  rootPage : Nat
  cacheSize : Int
  cache : OrderedMap Nat (Block size)
  cacheOrder : List Nat
  cacheNext : Nat

namespace FilePager

variable {size : PageSize}

def new (file : Bytes) (rootPage : Nat) (cacheSize : Int) :
    FilePager size where
  file := file
  totalPages := (file.length - headerSize) / size
  dirty := .empty
  rootPage := rootPage
  cacheSize := cacheSize
  cache := .empty
  cacheOrder := []
  cacheNext := 0

def cachePage (p : FilePager size) (pageNumber : Nat) (data : Block size) :
    Except Failure (FilePager size) :=
  if p.cacheSize ≤ 0 then .ok p
  else if (p.cacheOrder.length : Int) < p.cacheSize then
    .ok { p with cacheOrder := p.cacheOrder ++ [pageNumber],
                 cache := p.cache.set pageNumber data }
  else
    match p.cacheOrder[p.cacheNext]? with
    | none => .error MemoryPager.indexPanic
    | some oldest =>
        .ok { p with
          cacheOrder := p.cacheOrder.set p.cacheNext pageNumber
          cacheNext := (p.cacheNext + 1) % p.cacheSize.toNat
          cache := (p.cache.erase oldest).set pageNumber data }

/-- The block that is read into a buffer of the size of a page.  Reading at the
end of the file is an error, and reading across it leaves zeros. -/
def readBlock (file : Bytes) (offset : Int) : Except Failure (Block size) :=
  if offset < 0 then .error (sqlstate58030 "unable to seek: Invalid argument")
  else if file.length ≤ offset.toNat then
    .error (sqlstate58030 "unable to read from file: EOF")
  else
    .ok ⟨ByteFile.resize (file.drop offset.toNat) size, by simp⟩

def fetchPage (p : FilePager size) (pageNumber : Nat) :
    Except Failure (PageImage size × FilePager size) :=
  match p.dirty.get? pageNumber with
  | some data => .ok (.ofBytes data, p)
  | none =>
      match p.cache.get? pageNumber with
      | some data => .ok (.ofBytes data, p)
      | none => do
          let buf ← readBlock p.file (toInt32 (headerSize + size * pageNumber))
          let p ← p.cachePage pageNumber buf
          .ok (.ofBytes buf, p)

def storePage (p : FilePager size) (pageNumber : Nat) (page : PageImage size) :
    FilePager size :=
  { p with dirty := p.dirty.set pageNumber page.bytes }

def discard (p : FilePager size) : FilePager size :=
  { p with dirty := .empty, cache := .empty, cacheOrder := [], cacheNext := 0 }

def appendPage (p : FilePager size) (page : PageImage size) :
    FilePager size × Nat :=
  ({ p.storePage p.totalPages page with totalPages := p.totalPages + 1 },
    p.totalPages)

def setRootPage (p : FilePager size) (pageNumber : Nat) : FilePager size :=
  { p with rootPage := pageNumber }

end FilePager
end Vsql
