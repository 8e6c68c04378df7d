import Mathlib.Data.List.Sort
import Vsql.Wal.ReadBack

/-!
# Committing and recovering through the write-ahead log

`walCommitEdits` lists every change that a statement makes to the log and to
the database file, byte by byte and in order, so that a process that stops in
the middle of it has made a prefix of the list.  The same holds for
`walRecoverEdits`.  A stopped statement is recovered as long as its log can be
read with 32-bit sums.
-/

namespace Vsql

open Foundation ByteFile

/-- A database file and its log, if it has one. -/
structure Disk where
  file : Bytes
  log : Option Bytes
  deriving DecidableEq

inductive DiskEdit where
  | createLog
  | log (edit : Edit)
  | file (edit : Edit)
  deriving DecidableEq

namespace Disk

def apply (disk : Disk) : DiskEdit → Disk
  | .createLog => { disk with log := some [] }
  | .log edit => { disk with log := some (edit.apply (disk.log.getD [])) }
  | .file edit => { disk with file := edit.apply disk.file }

def applyAll (disk : Disk) (edits : List DiskEdit) : Disk :=
  edits.foldl apply disk

@[simp] theorem applyAll_nil (disk : Disk) : disk.applyAll [] = disk := rfl

@[simp] theorem applyAll_cons (disk : Disk) (edit : DiskEdit)
    (edits : List DiskEdit) :
    disk.applyAll (edit :: edits) = (disk.apply edit).applyAll edits := rfl

theorem applyAll_append (disk : Disk) (first second : List DiskEdit) :
    disk.applyAll (first ++ second) = (disk.applyAll first).applyAll second :=
  List.foldl_append

@[simp] theorem applyAll_file (disk : Disk) (edits : List Edit) :
    disk.applyAll (edits.map .file) =
      { disk with file := ByteFile.applyAll disk.file edits } := by
  induction edits generalizing disk with
  | nil => rfl
  | cons edit edits ih =>
      simp only [List.map_cons, applyAll_cons, ih]
      rfl

@[simp] theorem applyAll_log (file log : Bytes) (edits : List Edit) :
    Disk.applyAll ⟨file, some log⟩ (edits.map .log) =
      ⟨file, some (ByteFile.applyAll log edits)⟩ := by
  induction edits generalizing log with
  | nil => rfl
  | cons edit edits ih =>
      simp only [List.map_cons, applyAll_cons]
      exact ih (edit.apply log)

end Disk

/-! ## The pages of a statement -/

namespace FilePager

variable {size : PageSize}

def pageNumbers (p : FilePager size) : List Nat :=
  (p.dirty.keys.filter (· < p.totalPages)).insertionSort (· ≤ ·)

/-- The pages that `walCommit` writes, in order. -/
def changedPages (p : FilePager size) : OrderedMap Nat Bytes :=
  p.pageNumbers.foldl
    (fun pages n => pages.set n (((p.dirty.get? n).map (·.val)).getD []))
    .empty

end FilePager

/-! ## Checkpoint, commit and recovery -/

/-- Where a page starts, as an `i64`. -/
def pageOffset (pageSize number : Int) : Int := headerSize + pageSize * number

/-- The writes of the pages, up to one that starts before the file. -/
def walPageWrites (pageSize : Int) : List (Int × Bytes) → List Edit × Except Failure Unit
  | [] => ([], .ok ())
  | (pageNumber, data) :: pages =>
      if pageOffset pageSize pageNumber < 0 then
        ([], .error (sqlstate58030 "Invalid argument"))
      else
        let (edits, result) := walPageWrites pageSize pages
        (writeEdits (pageOffset pageSize pageNumber).toNat data ++ edits, result)

/-- The edits of the database file, and how the checkpoint ends. -/
def walCheckpoint (path : String) (commit : WalCommit) : List Edit × Except Failure Unit :=
  let size := pageOffset commit.pageSize commit.totalPages
  match walPageWrites commit.pageSize commit.pages.entries with
  | (edits, .error failure) => (edits, .error failure)
  | (edits, .ok ()) =>
      if size < 0 then
        (edits ++ writeEdits 0 commit.headerBytes,
          .error (sqlstate58030 s!"cannot truncate {path}: Invalid argument"))
      else (edits ++ writeEdits 0 commit.headerBytes ++ [.resize size.toNat], .ok ())

/-- Writing the state in the header of a log. -/
def walMarkCheckpointed : DiskEdit :=
  .log (.byte walStateOffset walStateCheckpointed)

/-- An empty log cannot be read, and then recovery has to look at it. -/
def walNeedsRecovery : Option Bytes → Bool
  | none => false
  | some log =>
      log.length = 0 || (walHeaderSize ≤ log.length &&
        byteAt log walStateOffset ≠ walStateCheckpointed)

/-- `os.read_bytes`, for which the size of a file has to be an `int`. -/
def readLogBytes (path : String) (log : Bytes) : Except Failure Bytes :=
  if log.length < 2147483648 then .ok log
  else
    .error (sqlstate58030 (s!"unable to read {walPath path}: int({log.length}) cast " ++
      s!"results in {toInt32 log.length}"))

/-- The version in a log, if it has a header. -/
def walLogVersion (log : Bytes) : Option Nat :=
  if walHeaderSize ≤ log.length ∧ log.take walMagic.length = walMagic then
    some (u16At log walMagic.length)
  else none

def checkLogVersion (path : String) (log : Bytes) : Except Failure Unit :=
  match walLogVersion log with
  | some version =>
      if walVersion < version then
        .error (sqlstate0A000 (s!"{walPath path} uses version {version} of " ++
          "the write-ahead log, but this version of vsql only supports up to " ++
          s!"{walVersion}"))
      else .ok ()
  | none => .ok ()

section

variable (crc : Bytes → UInt32) (path : String)

/-- The statement that recovery finds in the log. -/
def walLoad (log : Bytes) : Except Failure (Option WalCommit) := do
  let data ← readLogBytes path log
  checkLogVersion path data
  walRead crc data

/-- The changes that recovery makes, and how it ends. -/
def walRecoverRun (log : Option Bytes) : List DiskEdit × Except Failure Unit :=
  match walNeedsRecovery log, log with
  | true, some log =>
      match walLoad crc path log with
      | .error failure => ([], .error failure)
      | .ok none => ([walMarkCheckpointed], .ok ())
      | .ok (some commit) =>
          match walCheckpoint path commit with
          | (edits, .error failure) => (edits.map .file, .error failure)
          | (edits, .ok ()) => (edits.map .file ++ [walMarkCheckpointed], .ok ())
  | _, _ => ([], .ok ())

def walRecoverEdits (disk : Disk) : List DiskEdit := (walRecoverRun crc path disk.log).1

def walRecover (disk : Disk) : Except Failure Disk :=
  (walRecoverRun crc path disk.log).2.map fun _ =>
    disk.applyAll (walRecoverEdits crc path disk)

variable {size : PageSize}

def walLogOf (salt : UInt32) (header : Header) (pager : FilePager size) :
    Bytes :=
  walLog crc salt size pager.changedPages header.bytes pager.totalPages

/-- What a statement commits. -/
def walCommitOf (header : Header) (pager : FilePager size) : WalCommit where
  pageSize := size
  pages := readPages pager.changedPages.entries .empty
  headerBytes := header.bytes
  totalPages := pager.totalPages

def walCommitEdits (salt : UInt32) (header : Header) (pager : FilePager size) :
    List DiskEdit :=
  (.createLog :: (writeEdits 0 (walLogOf crc salt header pager)).map .log) ++
    (walCheckpoint path (walCommitOf header pager)).1.map .file ++ [walMarkCheckpointed]

/-! ## Processes that stop -/

/-- Recovery by a process that stops after `k` of its changes. -/
def walRecoverStopped (disk : Disk) (k : Nat) : Disk :=
  disk.applyAll ((walRecoverEdits crc path disk).take k)

/-- Any number of processes that stop while they recover. -/
def walRecoverStops (disk : Disk) (stops : List Nat) : Disk :=
  stops.foldl (walRecoverStopped crc path) disk

end

/-! ## The database that a statement makes -/

structure Database (size : PageSize) where
  header : Header
  pages : List (Block size)

namespace Database

variable {size : PageSize}

/-- The file that `init_database_file` creates. -/
def init (size : PageSize) : Database size := ⟨.new size, []⟩

def file (db : Database size) : Bytes :=
  db.header.bytes ++ (db.pages.map (·.val)).flatten

def zeroBlock : Block size := ⟨List.replicate size 0, List.length_replicate⟩

/-- The pages that the statement changed, among those that it did not. -/
def commit (db : Database size) (header : Header) (pager : FilePager size) :
    Database size where
  header := header
  pages := (List.range pager.totalPages).map fun n =>
    ((pager.dirty.get? n).or db.pages[n]?).getD zeroBlock

theorem length_file (db : Database size) :
    db.file.length = headerSize + size * db.pages.length := by
  have hblocks : ∀ block ∈ db.pages.map (·.val), block.length = size.val := by
    intro block hblock
    obtain ⟨page, -, rfl⟩ := List.mem_map.mp hblock
    exact page.property
  rw [file, List.length_append, Header.length_bytes,
    length_flatten_blocks hblocks, List.length_map]

theorem byteAt_file_header (db : Database size) {x : Nat} (h : x < headerSize) :
    byteAt db.file x = byteAt db.header.bytes x := by
  rw [file, byteAt_append, Header.length_bytes, if_pos h]

theorem byteAt_file_page (db : Database size) (n : Nat) {i : Nat}
    (hi : i < size.val) :
    byteAt db.file (headerSize + size * n + i) =
      byteAt ((db.pages[n]?.map (·.val)).getD []) i := by
  have hblocks : ∀ block ∈ db.pages.map (·.val), block.length = size.val := by
    intro block hblock
    obtain ⟨page, -, rfl⟩ := List.mem_map.mp hblock
    exact page.property
  have hsub : headerSize + size.val * n + i - headerSize = size.val * n + i := by
    omega
  rw [file, byteAt_append, Header.length_bytes, if_neg (by omega), hsub,
    byteAt_flatten_blocks hblocks n i hi, List.getElem?_map]

@[simp] theorem totalPages_new (db : Database size) (rootPage : Nat)
    (cacheSize : Int) :
    (FilePager.new db.file rootPage cacheSize : FilePager size).totalPages =
      db.pages.length := by
  have hpos : 0 < size.val := Nat.lt_of_le_of_lt (Nat.zero_le _) size.property.1
  simp [FilePager.new, length_file, hpos]

end Database

/-! ## What the checkpoint writes -/

/-- Every page in its place. -/
def pageWrites (pageSize : Nat) (pages : List (Nat × Bytes)) : List Edit :=
  pages.flatMap fun page => writeEdits (headerSize + pageSize * page.1) page.2

section

variable {size : PageSize}

/-- All of the pages of a statement and its header, in a file of the right length. -/
def walStatementEdits (header : Header) (pager : FilePager size) : List Edit :=
  redoEdits (headerSize + size * pager.totalPages)
    (pageWrites size pager.changedPages.entries ++ writeEdits 0 header.bytes)

theorem pageNumbers_nodup (pager : FilePager size) : pager.pageNumbers.Nodup :=
  (List.perm_insertionSort _ _).nodup_iff.mpr (pager.dirty.nodup.filter _)

theorem mem_pageNumbers (pager : FilePager size) (n : Nat) :
    n ∈ pager.pageNumbers ↔ n ∈ pager.dirty.keys ∧ n < pager.totalPages := by
  rw [FilePager.pageNumbers, List.mem_insertionSort]
  simp

theorem changedPages_get? (pager : FilePager size) (n : Nat) :
    pager.changedPages.get? n =
      if n < pager.totalPages then (pager.dirty.get? n).map (·.val) else none := by
  have hset : ∀ (numbers : List Nat) (done : OrderedMap Nat Bytes),
      (numbers.foldl (fun pages n =>
        pages.set n (((pager.dirty.get? n).map (·.val)).getD [])) done).get? n =
      if n ∈ numbers then
        some (((pager.dirty.get? n).map (·.val)).getD [])
      else done.get? n := by
    intro numbers
    induction numbers with
    | nil => simp
    | cons m numbers ih =>
        intro done
        rw [List.foldl_cons, ih, OrderedMap.get?_set]
        by_cases h : n = m
        · simp [h]
        · simp [h]
  rw [FilePager.changedPages, hset]
  simp only [mem_pageNumbers, OrderedMap.get?_empty]
  by_cases htotal : n < pager.totalPages
  · cases hget : pager.dirty.get? n with
    | none => simp [htotal, pager.dirty.get?_eq_none.mp hget]
    | some block =>
        have hmem : n ∈ pager.dirty.keys := by
          by_contra hnot
          rw [pager.dirty.get?_eq_none.mpr hnot] at hget
          cases hget
        simp [htotal, hmem]
  · simp [htotal]

theorem changedPages_mem {pager : FilePager size} {page : Nat × Bytes}
    (h : page ∈ pager.changedPages.entries) :
    page.1 < pager.totalPages ∧ page.2.length = size.val := by
  have hget : pager.changedPages.get? page.1 = some page.2 :=
    (OrderedMap.get?_eq_some _).mpr h
  rw [changedPages_get?] at hget
  split at hget
  · next htotal =>
      obtain ⟨block, -, hblock⟩ := Option.map_eq_some_iff.mp hget
      exact ⟨htotal, hblock ▸ block.property⟩
  · cases hget

theorem changedPages_fits {pager : FilePager size}
    (htotal : pager.totalPages < 2 ^ 31) :
    FitsFrame pager.changedPages.entries := by
  intro page hpage
  obtain ⟨hnumber, hlength⟩ := changedPages_mem hpage
  have hsize : size.val ≤ 65535 := size.property.2
  exact ⟨by omega, by omega⟩

private theorem lastWrite_pageWrites {pages : List (Nat × Bytes)}
    (hsize : ∀ page ∈ pages, page.2.length = size.val)
    (hnodup : (pages.map Prod.fst).Nodup) (n : Nat) {i : Nat}
    (hi : i < size.val) :
    lastWrite (pageWrites size pages) (headerSize + size * n + i) =
      (OrderedMap.lookup pages n).bind (·[i]?) := by
  induction pages with
  | nil => rfl
  | cons page pages ih =>
      obtain ⟨m, data⟩ := page
      rw [List.map_cons, List.nodup_cons] at hnodup
      have hdata : data.length = size.val := hsize (m, data) (by simp)
      have hrest := ih (fun p hp => hsize p (List.mem_cons_of_mem _ hp)) hnodup.2
      rw [pageWrites] at hrest ⊢
      rw [List.flatMap_cons, lastWrite_append, hrest, lastWrite_writeEdits]
      rcases Nat.lt_trichotomy n m with hlt | rfl | hgt
      · have hbefore : size.val * (n + 1) ≤ size.val * m :=
          Nat.mul_le_mul_left _ hlt
        rw [Nat.mul_succ] at hbefore
        have hnot : ¬headerSize + size.val * m ≤ headerSize + size.val * n + i := by
          omega
        simp [hnot, OrderedMap.lookup, Nat.ne_of_gt hlt]
      · have hnone : OrderedMap.lookup pages n = none := by
          have h := (OrderedMap.mk pages hnodup.2).get?_eq_none.mpr hnodup.1
          exact h
        rw [hnone]
        simp [OrderedMap.lookup]
      · have hafter : size.val * (m + 1) ≤ size.val * n :=
          Nat.mul_le_mul_left _ hgt
        rw [Nat.mul_succ] at hafter
        have hout : data[headerSize + size.val * n + i -
            (headerSize + size.val * m)]? = none :=
          List.getElem?_eq_none (by omega)
        simp [hout, OrderedMap.lookup, Nat.ne_of_lt hgt]

private theorem lastWrite_pageWrites_header (pages : List (Nat × Bytes))
    {x : Nat} (hx : x < headerSize) :
    lastWrite (pageWrites size pages) x = none := by
  induction pages with
  | nil => rfl
  | cons page pages ih =>
      rw [pageWrites] at ih ⊢
      have hnot : ¬headerSize + size.val * page.1 ≤ x := by omega
      rw [List.flatMap_cons, lastWrite_append, ih, lastWrite_writeEdits,
        if_neg hnot]
      rfl

theorem writesBelow_statement (header : Header) (pager : FilePager size) :
    WritesBelow (headerSize + size * pager.totalPages)
      (pageWrites size pager.changedPages.entries ++
        writeEdits 0 header.bytes) := by
  rw [writesBelow_append]
  constructor
  · intro edit hedit
    obtain ⟨page, hpage, hedit⟩ := List.mem_flatMap.mp hedit
    obtain ⟨hnumber, hlength⟩ := changedPages_mem hpage
    have hlast : size.val * (page.1 + 1) ≤ size.val * pager.totalPages :=
      Nat.mul_le_mul_left _ hnumber
    rw [Nat.mul_succ] at hlast
    exact writesBelow_writeEdits (by omega) edit hedit
  · exact writesBelow_writeEdits (by simp)

/-- The checkpoint makes the file of the statement's database. -/
theorem applyAll_walStatementEdits (db : Database size) (header : Header)
    (pager : FilePager size) :
    ByteFile.applyAll db.file (walStatementEdits header pager) =
      (db.commit header pager).file := by
  have hpages : (db.commit header pager).pages.length = pager.totalPages := by
    simp [Database.commit]
  have hlength : (ByteFile.applyAll db.file
      (walStatementEdits header pager)).length =
        headerSize + size * pager.totalPages := length_applyAll_redo _ _ _
  refine ext_byteAt ?_ fun x hx => ?_
  · rw [hlength, Database.length_file, hpages]
  · rw [hlength] at hx
    rw [walStatementEdits,
      byteAt_applyAll_redo (writesBelow_statement header pager) _ hx,
      lastWrite_append, lastWrite_writeEdits]
    by_cases hheader : x < headerSize
    · have hbyte : header.bytes[x]? = some (byteAt header.bytes x) := by
        have hx' : x < header.bytes.length := by simpa using hheader
        rw [byteAt_eq_getElem hx', List.getElem?_eq_getElem hx']
      have hnew : (db.commit header pager).header = header := rfl
      rw [Database.byteAt_file_header _ hheader,
        Database.byteAt_file_header _ hheader, hnew]
      simp [hbyte]
    · obtain ⟨n, i, hi, rfl⟩ : ∃ n i, i < size.val ∧
          x = headerSize + size * n + i := by
        have hpos : 0 < size.val := Nat.lt_of_le_of_lt (Nat.zero_le _) size.property.1
        refine ⟨(x - headerSize) / size, (x - headerSize) % size,
          Nat.mod_lt _ hpos, ?_⟩
        have h := Nat.div_add_mod (x - headerSize) size.val
        omega
      have hn : n < pager.totalPages := by
        by_contra hnot
        have hmul : size.val * pager.totalPages ≤ size.val * n :=
          Nat.mul_le_mul_left _ (Nat.le_of_not_lt hnot)
        omega
      have hend : header.bytes[headerSize + size.val * n + i]? = none :=
        List.getElem?_eq_none (by simp; omega)
      rw [Database.byteAt_file_page _ _ hi, Database.byteAt_file_page _ _ hi,
        lastWrite_pageWrites (fun page hpage => (changedPages_mem hpage).2)
          pager.changedPages.nodup n hi]
      change (Option.or _ ((pager.changedPages.get? n).bind _)).getD _ = _
      have hblock : ∀ block : Block size, block.val[i]? = some (byteAt block.val i) := by
        intro block
        have hi' : i < block.val.length := by simpa [block.property] using hi
        rw [byteAt_eq_getElem hi', List.getElem?_eq_getElem hi']
      rw [changedPages_get?, if_pos hn]
      cases hdirty : pager.dirty.get? n with
      | some block =>
          simp [hend, hdirty, hblock, Database.commit, hn]
      | none =>
          cases hold : db.pages[n]? with
          | some block => simp [hend, hdirty, hold, Database.commit, hn]
          | none =>
              have hzero : byteAt (Database.zeroBlock : Block size).val i = 0 :=
                byteAt_replicate_zero _ _
              have hpast : byteAt [] i = 0 := rfl
              simp [hend, hdirty, hold, Database.commit, hn, hzero, hpast]

theorem entries_readPages {pages : OrderedMap Nat Bytes} :
    (readPages pages.entries .empty).entries = pages.entries.map fun page => (↑page.1, page.2) :=
  OrderedMap.entries_foldl_set_map (pages.nodup.map fun _ _ => Int.ofNat.inj)

theorem pageOffset_natCast (pageSize number : Nat) :
    pageOffset pageSize number = (headerSize + pageSize * number : Nat) := by
  rw [pageOffset]
  push_cast
  rfl

theorem walPageWrites_natCast (pageSize : Nat) (pages : List (Nat × Bytes)) :
    walPageWrites pageSize (pages.map fun page => (↑page.1, page.2)) =
      (pageWrites pageSize pages, .ok ()) := by
  induction pages with
  | nil => rfl
  | cons page pages ih =>
      rw [List.map_cons, walPageWrites, ih, pageOffset_natCast, if_neg (by omega)]
      rfl

/-- The checkpoint of a statement makes all of its edits. -/
theorem walCheckpoint_walCommitOf (path : String) (header : Header) (pager : FilePager size) :
    walCheckpoint path (walCommitOf header pager) = (walStatementEdits header pager, .ok ()) := by
  simp only [walCheckpoint, walCommitOf, entries_readPages, walPageWrites_natCast,
    pageOffset_natCast]
  rw [if_neg (by omega), Int.toNat_natCast]
  rfl

end

/-! ## Recovery, one process after the other -/

section

variable {crc : Bytes → UInt32} {path : String}

@[simp] theorem walNeedsRecovery_marked (log : Bytes) :
    walNeedsRecovery (some (writeByte log walStateOffset walStateCheckpointed)) =
      false := by
  have hlength : (writeByte log walStateOffset walStateCheckpointed).length ≠
      0 := by
    simp
  simp [walNeedsRecovery, byteAt_writeByte]

theorem walRecoverRun_of_settled {log : Option Bytes} (h : walNeedsRecovery log = false) :
    walRecoverRun crc path log = ([], .ok ()) := by
  simp [walRecoverRun, h]

theorem walRecoverRun_of_load {log : Bytes} (hneeds : walNeedsRecovery (some log) = true) :
    walRecoverRun crc path (some log) =
      match walLoad crc path log with
      | .error failure => ([], .error failure)
      | .ok none => ([walMarkCheckpointed], .ok ())
      | .ok (some commit) =>
          match walCheckpoint path commit with
          | (edits, .error failure) => (edits.map .file, .error failure)
          | (edits, .ok ()) => (edits.map .file ++ [walMarkCheckpointed], .ok ()) := by
  simp only [walRecoverRun, hneeds]

theorem walRecover_of_ok {disk : Disk} {edits : List DiskEdit}
    (h : walRecoverRun crc path disk.log = (edits, .ok ())) :
    walRecoverEdits crc path disk = edits ∧
      walRecover crc path disk = .ok (disk.applyAll edits) := by
  simp [walRecover, walRecoverEdits, h, Except.map]

/-- The file of a statement that is not in the log. -/
structure Uncommitted (crc : Bytes → UInt32) (path : String) (file : Bytes) (disk : Disk) :
    Prop where
  file_eq : disk.file = file
  log_torn : walNeedsRecovery disk.log = false ∨
    ∃ log, disk.log = some log ∧ walNeedsRecovery (some log) = true ∧
      walLoad crc path log = .ok none

theorem Uncommitted.run {file : Bytes} {disk : Disk} (h : Uncommitted crc path file disk) :
    walNeedsRecovery disk.log = false ∧ walRecoverRun crc path disk.log = ([], .ok ()) ∨
      walRecoverRun crc path disk.log = ([walMarkCheckpointed], .ok ()) := by
  obtain ⟨-, hsettled | ⟨log, hlog, hneeds, hload⟩⟩ := h
  · exact .inl ⟨hsettled, walRecoverRun_of_settled hsettled⟩
  · exact .inr (by rw [hlog, walRecoverRun_of_load hneeds, hload])

theorem Disk.applyAll_mark (disk : Disk) :
    (disk.applyAll [walMarkCheckpointed]).file = disk.file ∧
      walNeedsRecovery (disk.applyAll [walMarkCheckpointed]).log = false :=
  ⟨rfl, walNeedsRecovery_marked (disk.log.getD [])⟩

theorem Uncommitted.walRecoverStopped {file : Bytes} {disk : Disk}
    (h : Uncommitted crc path file disk) (k : Nat) :
    Uncommitted crc path file (walRecoverStopped crc path disk k) := by
  unfold Vsql.walRecoverStopped walRecoverEdits
  obtain ⟨-, hrun⟩ | hrun := h.run
  · rw [hrun, List.take_nil]
    exact h
  · rw [hrun]
    cases k with
    | zero => exact h
    | succ k =>
        obtain ⟨hfile, hsettled⟩ := disk.applyAll_mark
        rw [List.take_of_length_le (by simp)]
        exact ⟨hfile.trans h.file_eq, .inl hsettled⟩

theorem Uncommitted.walRecover {file : Bytes} {disk : Disk}
    (h : Uncommitted crc path file disk) :
    ∃ recovered, walRecover crc path disk = .ok recovered ∧
      walNeedsRecovery recovered.log = false ∧ recovered.file = file := by
  obtain ⟨hsettled, hrun⟩ | hrun := h.run
  · exact ⟨disk, (walRecover_of_ok hrun).2, hsettled, h.file_eq⟩
  · obtain ⟨hfile, hsettled⟩ := disk.applyAll_mark
    exact ⟨_, (walRecover_of_ok hrun).2, hsettled, hfile.trans h.file_eq⟩

/-- The file of a statement that is in the log.  Some of its edits may have been
made before, which making all of them again will not show. -/
structure Committed (crc : Bytes → UInt32) (path : String) (file : Bytes) (edits : List Edit)
    (disk : Disk) : Prop where
  redo : ∀ file k,
    ByteFile.applyAll (ByteFile.applyAll file (edits.take k)) edits =
      ByteFile.applyAll file edits
  log_complete :
    (walRecoverRun crc path disk.log = (edits.map .file ++ [walMarkCheckpointed], .ok ()) ∧
      ByteFile.applyAll disk.file edits = ByteFile.applyAll file edits) ∨
    (walNeedsRecovery disk.log = false ∧ disk.file = ByteFile.applyAll file edits)

theorem Disk.applyAll_commit (disk : Disk) (edits : List Edit) :
    (disk.applyAll (edits.map .file ++ [walMarkCheckpointed])).file =
        ByteFile.applyAll disk.file edits ∧
      walNeedsRecovery
        (disk.applyAll (edits.map .file ++ [walMarkCheckpointed])).log = false := by
  rw [Disk.applyAll_append, Disk.applyAll_file]
  exact Disk.applyAll_mark _

theorem Committed.walRecoverStopped {file : Bytes} {edits : List Edit}
    {disk : Disk} (h : Committed crc path file edits disk) (k : Nat) :
    Committed crc path file edits (walRecoverStopped crc path disk k) := by
  unfold Vsql.walRecoverStopped walRecoverEdits
  obtain ⟨hredo, ⟨hrun, hfile⟩ | ⟨hsettled, hfile⟩⟩ := h
  · rw [hrun]
    by_cases hall : k ≤ edits.length
    · -- Stopped while copying the pages: the log is still there.
      rw [List.take_append_of_le_length (by simpa using hall), ← List.map_take,
        Disk.applyAll_file]
      exact ⟨hredo, .inl ⟨hrun, (hredo _ _).trans hfile⟩⟩
    · obtain ⟨hall', hmarked⟩ := disk.applyAll_commit edits
      rw [List.take_of_length_le (by simp; omega)]
      exact ⟨hredo, .inr ⟨hmarked, hall'.trans hfile⟩⟩
  · rw [walRecoverRun_of_settled hsettled, List.take_nil]
    exact ⟨hredo, .inr ⟨hsettled, hfile⟩⟩

theorem Committed.walRecover {file : Bytes} {edits : List Edit}
    {disk : Disk} (h : Committed crc path file edits disk) :
    ∃ recovered, walRecover crc path disk = .ok recovered ∧
      walNeedsRecovery recovered.log = false ∧
      recovered.file = ByteFile.applyAll file edits := by
  obtain ⟨-, ⟨hrun, hfile⟩ | ⟨hsettled, hfile⟩⟩ := h
  · obtain ⟨hall, hmarked⟩ := disk.applyAll_commit edits
    exact ⟨_, (walRecover_of_ok hrun).2, hmarked, hall.trans hfile⟩
  · exact ⟨disk, (walRecover_of_ok (walRecoverRun_of_settled hsettled)).2, hsettled, hfile⟩

/-- What every stopped recovery keeps, any number of them keep. -/
theorem walRecoverStops_induction {motive : Disk → Prop}
    (hkept : ∀ disk k, motive disk → motive (walRecoverStopped crc path disk k))
    {disk : Disk} (h : motive disk) (stops : List Nat) :
    motive (walRecoverStops crc path disk stops) := by
  induction stops generalizing disk with
  | nil => exact h
  | cons k stops ih => exact ih (hkept disk k h)

theorem Uncommitted.walRecoverStops {file : Bytes} {disk : Disk}
    (h : Uncommitted crc path file disk) (stops : List Nat) :
    Uncommitted crc path file (walRecoverStops crc path disk stops) :=
  walRecoverStops_induction (motive := Uncommitted crc path file)
    (fun _ k h => h.walRecoverStopped k) h stops

theorem Committed.walRecoverStops {file : Bytes} {edits : List Edit}
    {disk : Disk} (h : Committed crc path file edits disk) (stops : List Nat) :
    Committed crc path file edits (walRecoverStops crc path disk stops) :=
  walRecoverStops_induction (motive := Committed crc path file edits)
    (fun _ k h => h.walRecoverStopped k) h stops

end

/-! ## Every point at which a statement can stop -/

section

variable {crc : Bytes → UInt32} {size : PageSize}

theorem applyAll_writeEdits_end (file data : Bytes) :
    ByteFile.applyAll file (writeEdits file.length data) = file ++ data := by
  induction data generalizing file with
  | nil => simp [writeEdits]
  | cons b data ih =>
      have hbyte : writeByte file file.length b = file ++ [b] := by
        simp [writeByte]
      have h := ih (file ++ [b])
      rw [List.length_append, List.length_singleton] at h
      simp [writeEdits, Edit.apply, hbyte, h]

theorem take_writeEdits (start : Nat) (data : Bytes) (k : Nat) :
    (writeEdits start data).take k = writeEdits start (data.take k) := by
  induction data generalizing start k with
  | nil => simp [writeEdits]
  | cons b data ih =>
      cases k with
      | zero => simp [writeEdits]
      | succ k => simp [writeEdits, ih]

/-- The log after the first bytes of it have been written. -/
theorem applyAll_createLog (disk : Disk) (data : Bytes) :
    disk.applyAll (.createLog :: (writeEdits 0 data).map .log) =
      { disk with log := some data } := by
  have h := applyAll_writeEdits_end [] data
  simp only [List.length_nil, List.nil_append] at h
  simp [Disk.apply, h]

theorem walLogVersion_take (salt : UInt32) (pageSize : PageSize)
    (pages : OrderedMap Nat Bytes) (headerBytes : Bytes) (totalPages k : Nat)
    {version : Nat}
    (h : walLogVersion ((walLog crc salt pageSize pages headerBytes
      totalPages).take k) = some version) : version = walVersion := by
  unfold walLogVersion at h
  split at h
  · next hheader =>
      obtain ⟨hlong, -⟩ := hheader
      have hk : walHeaderSize ≤ k := by
        rw [List.length_take] at hlong
        omega
      rw [walLog, List.take_append, length_walHeader,
        List.take_of_length_le (by simpa using hk), walHeader, walHeaderFields,
        u16At] at h
      simp only [List.append_assoc, List.drop_left,
        List.take_left' (length_writeU16 _)] at h
      rw [ofBigEndian_writeU16 (by decide)] at h
      exact (Option.some.inj h).symm
  · cases h

variable (crc) in
theorem walHeaderSize_le_walLogOf (salt : UInt32) (header : Header) (pager : FilePager size) :
    walHeaderSize ≤ (walLogOf crc salt header pager).length := by
  simp [walLogOf, walLog]

/-- A log with a header says that it is committed. -/
theorem walNeedsRecovery_take (salt : UInt32) (header : Header) (pager : FilePager size)
    {k : Nat} (hk : walHeaderSize ≤ k) :
    walNeedsRecovery (some ((walLogOf crc salt header pager).take k)) = true := by
  have hlong := walHeaderSize_le_walLogOf crc salt header pager
  have hoffset : walStateOffset < k := Nat.lt_of_lt_of_le (by decide) hk
  have hstate : byteAt ((walLogOf crc salt header pager).take k) walStateOffset =
      walStateCommitted := by
    rw [byteAt, List.getD_eq_getElem?_getD, List.getElem?_take_of_lt hoffset]
    simp [walLogOf, walLog, walHeader, walHeaderFields, walMagic, walStateOffset, writeU16,
      bigEndian, walStateCommitted]
  simp [walNeedsRecovery, hstate, hlong, hk, walStateCommitted, walStateCheckpointed]

theorem walNeedsRecovery_walLogOf (salt : UInt32) (header : Header) (pager : FilePager size) :
    walNeedsRecovery (some (walLogOf crc salt header pager)) = true := by
  rw [← List.take_length (l := walLogOf crc salt header pager)]
  exact walNeedsRecovery_take salt header pager (walHeaderSize_le_walLogOf crc salt header pager)

theorem length_header_bytes_lt (header : Header) :
    header.bytes.length < 2 ^ 31 := by
  rw [Header.length_bytes]
  decide

/-! ### The size of the log -/

/-- The size of the log of a statement that changes so many pages. -/
def walLogSize (pageSize pages : Nat) : Nat :=
  walHeaderSize + pages * (walFrameHeaderSize + pageSize) + (walFrameHeaderSize + headerSize)

/-- The log, and the header of another frame after it, end before 2 GiB. -/
def FilePager.FitsLog (pager : FilePager size) : Prop :=
  walLogSize size pager.pageNumbers.length + walFrameHeaderSize < 2147483648

theorem length_changedPages (pager : FilePager size) :
    pager.changedPages.entries.length = pager.pageNumbers.length := by
  have hset : pager.changedPages = OrderedMap.setAll (pager.pageNumbers.map fun n =>
      (n, ((pager.dirty.get? n).map fun block => block.val).getD [])) .empty := by
    rw [FilePager.changedPages, OrderedMap.setAll, List.foldl_map]
  have hkeys : (((OrderedMap.empty : OrderedMap Nat Bytes).entries ++
      pager.pageNumbers.map fun n =>
        (n, ((pager.dirty.get? n).map fun block => block.val).getD [])).map Prod.fst).Nodup := by
    rw [OrderedMap.empty, List.nil_append, List.map_map]
    exact (pageNumbers_nodup pager).map fun _ _ h => h
  rw [hset, OrderedMap.entries_setAll hkeys, OrderedMap.empty, List.nil_append, List.length_map]

theorem length_walFrames {pages : List (Nat × Bytes)} {pageSize : Nat}
    (hpages : ∀ page ∈ pages, page.2.length = pageSize) (headerBytes : Bytes) (totalPages : Nat)
    (checksum : UInt32) :
    (walFrames crc pages headerBytes totalPages checksum).flatten.length =
      pages.length * (walFrameHeaderSize + pageSize) +
        (walFrameHeaderSize + headerBytes.length) := by
  induction pages generalizing checksum with
  | nil => simp [walFrames]
  | cons page pages ih =>
      have hpage : page.2.length = pageSize := hpages page (List.mem_cons_self ..)
      rw [walFrames, List.flatten_cons, List.length_append, length_walFrame, hpage,
        ih fun p hp => hpages p (List.mem_cons_of_mem _ hp), List.length_cons, Nat.succ_mul]
      omega

theorem length_walLogOf (salt : UInt32) (header : Header) (pager : FilePager size) :
    (walLogOf crc salt header pager).length = walLogSize size pager.pageNumbers.length := by
  rw [walLogOf, length_walLog, length_walFrames fun page hpage => (changedPages_mem hpage).2,
    length_changedPages, Header.length_bytes, walLogSize, Nat.add_assoc]

/-! ### Loading the statement -/

variable {path : String} {pager : FilePager size}

theorem walLoad_of_read {log : Bytes} (hshort : log.length < 2147483648)
    (hversion : ∀ version, walLogVersion log = some version → version = walVersion) :
    walLoad crc path log = walRead crc log := by
  have hcheck : checkLogVersion path log = .ok () := by
    unfold checkLogVersion
    split
    · next version h => rw [hversion version h, if_neg (lt_irrefl _)]
    · rfl
  rw [walLoad, readLogBytes, if_pos hshort]
  change (checkLogVersion path log >>= fun _ => walRead crc log) = _
  rw [hcheck]
  rfl

theorem walLoad_of_large {log : Bytes} (hlarge : 2147483648 ≤ log.length) :
    ∃ failure, walLoad crc path log = .error failure := by
  rw [walLoad, readLogBytes, if_neg (by omega)]
  exact ⟨_, rfl⟩

theorem walLoad_take (salt : UInt32) (header : Header) {k : Nat}
    (hshort : ((walLogOf crc salt header pager).take k).length < 2147483648) :
    walLoad crc path ((walLogOf crc salt header pager).take k) =
      walRead crc ((walLogOf crc salt header pager).take k) :=
  walLoad_of_read hshort fun _ h => walLogVersion_take _ _ _ _ _ _ h

section

variable (htotal : pager.totalPages < 2 ^ 31)
include htotal

/-- A log that is cut short is either read as one without a statement, or not at all. -/
theorem walLoad_torn (salt : UInt32) (header : Header) {k : Nat}
    (hk : k < (walLogOf crc salt header pager).length) :
    walLoad crc path ((walLogOf crc salt header pager).take k) = .ok none ∨
      ¬pager.FitsLog ∧ ∃ failure,
        walLoad crc path ((walLogOf crc salt header pager).take k) = .error failure := by
  have hlength : ((walLogOf crc salt header pager).take k).length = k := by
    rw [List.length_take]
    omega
  have hsize : (walLogOf crc salt header pager).length =
      walLogSize size pager.pageNumbers.length := length_walLogOf salt header pager
  by_cases hshort : k < 2147483648
  · rw [walLoad_take salt header (hlength.trans_lt hshort)]
    obtain hnone | ⟨hlarge, message, hpanic⟩ := walRead_torn (changedPages_fits htotal)
      (length_header_bytes_lt header) hk hshort
    · exact .inl hnone
    · refine .inr ⟨fun hfits => ?_, _, hpanic⟩
      rw [FilePager.FitsLog, ← hsize] at hfits
      rw [walLogOf] at hfits
      omega
  · refine .inr ⟨fun hfits => ?_, walLoad_of_large (by omega)⟩
    rw [FilePager.FitsLog, ← hsize] at hfits
    omega

/-- The log is read back if the sums don't wrap around, and otherwise it can't be read. -/
theorem walLoad_walLogOf (salt : UInt32) (header : Header) :
    pager.FitsLog ∧
        walLoad crc path (walLogOf crc salt header pager) = .ok (some (walCommitOf header pager)) ∨
      ¬pager.FitsLog ∧ ∃ failure,
        walLoad crc path (walLogOf crc salt header pager) = .error failure := by
  have hsize : (walLogOf crc salt header pager).length =
      walLogSize size pager.pageNumbers.length := length_walLogOf salt header pager
  rw [FilePager.FitsLog, ← hsize, walFrameHeaderSize]
  by_cases hshort : (walLogOf crc salt header pager).length < 2147483648
  · have hversion : ∀ version, walLogVersion (walLogOf crc salt header pager) = some version →
        version = walVersion := by
      intro version h
      rw [← List.take_length (l := walLogOf crc salt header pager)] at h
      exact walLogVersion_take _ _ _ _ _ _ h
    rw [walLoad_of_read hshort hversion]
    unfold walLogOf at hshort ⊢
    have hread := walRead_walLog (changedPages_fits htotal) htotal hshort
    split_ifs at hread with hfits
    · exact .inl ⟨hfits, hread⟩
    · obtain ⟨message, hpanic⟩ := hread
      exact .inr ⟨hfits, _, hpanic⟩
  · exact .inr ⟨by omega, walLoad_of_large (by omega)⟩

variable (crc path) in
/-- A log that doesn't fit can be cut so that it can't be read. -/
theorem exists_walLoad_error (salt : UInt32) (header : Header) (hlarge : ¬pager.FitsLog) :
    ∃ k ≤ (walLogOf crc salt header pager).length,
      walNeedsRecovery (some ((walLogOf crc salt header pager).take k)) = true ∧
        ∃ failure, walLoad crc path ((walLogOf crc salt header pager).take k) =
          .error failure := by
  by_cases hshort : (walLogOf crc salt header pager).length < 2147483648
  · -- The sum wraps around at the end of the log.
    refine ⟨_, le_rfl, ?_⟩
    rw [List.take_length]
    obtain ⟨hfits, -⟩ | ⟨-, hfailure⟩ := walLoad_walLogOf htotal salt header
    · exact absurd hfits hlarge
    · exact ⟨walNeedsRecovery_walLogOf salt header pager, hfailure⟩
  · obtain ⟨k, hk, hcut, hheader, message, hpanic⟩ := exists_walRead_panic
      (changedPages_fits htotal) (length_header_bytes_lt header) (not_lt.mp hshort)
    have hlength : ((walLogOf crc salt header pager).take k).length = k := by
      rw [List.length_take]
      exact Nat.min_eq_left hk.le
    refine ⟨k, hk.le, walNeedsRecovery_take salt header pager hheader, .panic message, ?_⟩
    rw [walLoad_take salt header (hlength.trans_lt hcut)]
    exact hpanic

/-! ### Statements that stop -/

/-- A statement whose log is cut short is not in it. -/
theorem uncommitted_of_torn (hfits : pager.FitsLog) (salt : UInt32) (header : Header)
    (file : Bytes) {k : Nat} (hk : k < (walLogOf crc salt header pager).length) :
    Uncommitted crc path file
      ⟨file, some ((walLogOf crc salt header pager).take k)⟩ := by
  refine ⟨rfl, ?_⟩
  by_cases hneeds : walNeedsRecovery (some ((walLogOf crc salt header pager).take k)) = true
  · obtain hload | ⟨hlarge, -⟩ := walLoad_torn htotal salt header hk
    · exact .inr ⟨_, rfl, hneeds, hload⟩
    · exact absurd hfits hlarge
  · exact .inl (Bool.eq_false_of_not_eq_true hneeds)

/-- Recovery from the log of a statement makes all of the statement's edits. -/
theorem walRecoverRun_walLogOf (hfits : pager.FitsLog) (salt : UInt32) (header : Header) :
    walRecoverRun crc path (some (walLogOf crc salt header pager)) =
      ((walStatementEdits header pager).map .file ++ [walMarkCheckpointed], .ok ()) := by
  obtain ⟨-, hload⟩ | ⟨hlarge, -⟩ := walLoad_walLogOf htotal salt header
  · rw [walRecoverRun_of_load (walNeedsRecovery_walLogOf salt header pager), hload]
    simp only [walCheckpoint_walCommitOf]
  · exact absurd hfits hlarge

/-- A statement whose log is complete is in it, whatever has been copied. -/
theorem committed_of_complete (hfits : pager.FitsLog) (salt : UInt32) (header : Header)
    (file : Bytes) (k : Nat) :
    Committed crc path file (walStatementEdits header pager)
      ⟨ByteFile.applyAll file ((walStatementEdits header pager).take k),
        some (walLogOf crc salt header pager)⟩ := by
  have hredo : ∀ file k, ByteFile.applyAll (ByteFile.applyAll file
      ((walStatementEdits header pager).take k)) (walStatementEdits header pager) =
        ByteFile.applyAll file (walStatementEdits header pager) :=
    fun file k => replay_prefix (writesBelow_statement header pager) file k
  exact ⟨hredo, .inl ⟨walRecoverRun_walLogOf htotal hfits salt header, hredo file k⟩⟩

end

theorem walCommitEdits_eq (salt : UInt32) (header : Header) (pager : FilePager size) :
    walCommitEdits crc path salt header pager =
      (.createLog :: (writeEdits 0 (walLogOf crc salt header pager)).map .log) ++
        ((walStatementEdits header pager).map .file ++ [walMarkCheckpointed]) := by
  rw [walCommitEdits, walCheckpoint_walCommitOf, List.append_assoc]

/-- The log of a statement that stops before its log is complete. -/
theorem applyAll_take_log (salt : UInt32) (header : Header) (disk : Disk) {k : Nat}
    (hk : k ≤ (walLogOf crc salt header pager).length) :
    disk.applyAll ((walCommitEdits crc path salt header pager).take (k + 1)) =
      { disk with log := some ((walLogOf crc salt header pager).take k) } := by
  rw [walCommitEdits_eq, List.take_append_of_le_length (by simpa using hk), List.take_succ_cons,
    ← List.map_take, take_writeEdits, applyAll_createLog]

section

variable (htotal : pager.totalPages < 2 ^ 31)
include htotal

private theorem committed_of_stop (hfits : pager.FitsLog) (salt : UInt32) (header : Header)
    (disk : Disk) {k : Nat} (hk : (walLogOf crc salt header pager).length < k) :
    Committed crc path disk.file (walStatementEdits header pager)
      (disk.applyAll ((walCommitEdits crc path salt header pager).take k)) := by
  obtain ⟨copied, rfl⟩ := Nat.exists_eq_add_of_lt hk
  have hlog : (DiskEdit.createLog ::
      (writeEdits 0 (walLogOf crc salt header pager)).map .log).length =
        (walLogOf crc salt header pager).length + 1 := by
    simp
  rw [walCommitEdits_eq, List.take_append, hlog, List.take_of_length_le (by omega),
    Disk.applyAll_append, applyAll_createLog]
  have hcomplete : ∀ copied, Committed crc path disk.file _ _ :=
    committed_of_complete htotal hfits salt header disk.file
  by_cases hall : copied ≤ (walStatementEdits header pager).length
  · have h := hcomplete copied
    rw [List.take_append_of_le_length (by simp; omega), ← List.map_take,
      Disk.applyAll_file]
    convert h using 4
    omega
  · obtain ⟨hfile, hmarked⟩ := Disk.applyAll_commit
      { disk with log := some (walLogOf crc salt header pager) } (walStatementEdits header pager)
    rw [List.take_of_length_le (by simp; omega)]
    exact ⟨(hcomplete 0).redo, .inr ⟨hmarked, hfile⟩⟩

private theorem uncommitted_of_stop (hfits : pager.FitsLog) (salt : UInt32) (header : Header)
    (disk : Disk) (hsettled : walNeedsRecovery disk.log = false) {k : Nat}
    (hk : k ≤ (walLogOf crc salt header pager).length) :
    Uncommitted crc path disk.file
      (disk.applyAll ((walCommitEdits crc path salt header pager).take k)) := by
  cases k with
  | zero => exact ⟨rfl, .inl hsettled⟩
  | succ k =>
      rw [applyAll_take_log salt header disk (by omega)]
      exact uncommitted_of_torn htotal hfits salt header disk.file hk

/-- A statement whose log doesn't fit can stop so that recovery fails. -/
theorem exists_walRecover_error (crc : Bytes → UInt32) (path : String) (salt : UInt32)
    (header : Header) (disk : Disk) (hlarge : ¬pager.FitsLog) : ∃ k failure,
      walRecover crc path
        (disk.applyAll ((walCommitEdits crc path salt header pager).take k)) =
          .error failure := by
  obtain ⟨k, hk, hneeds, failure, hfailure⟩ :=
    exists_walLoad_error crc path htotal salt header hlarge
  refine ⟨k + 1, failure, ?_⟩
  rw [applyAll_take_log salt header disk hk, walRecover, walRecoverRun_of_load hneeds, hfailure]
  rfl

/-- A statement that stops at any point, and recoveries that stop at any point,
leave a database that the next recovery makes the old one or the new one, which
is the new one if the commit frame was complete.  This is so for the statements
whose log fits, and no others. -/
theorem walRecover_after_stop (crc : Bytes → UInt32) (path : String) (salt : UInt32)
    (db : Database size) (header : Header) {log : Option Bytes}
    (hsettled : walNeedsRecovery log = false) :
    (∀ k stops, ∃ disk,
      walRecover crc path
        (walRecoverStops crc path
          (Disk.applyAll ⟨db.file, log⟩
            ((walCommitEdits crc path salt header pager).take k)) stops) =
          .ok disk ∧
      walNeedsRecovery disk.log = false ∧
      disk.file =
        if (walLogOf crc salt header pager).length < k then
          (db.commit header pager).file
        else db.file) ↔
      pager.FitsLog := by
  constructor
  · intro hrecovers
    by_contra hlarge
    obtain ⟨k, failure, hfailure⟩ :=
      exists_walRecover_error htotal crc path salt header ⟨db.file, log⟩ hlarge
    obtain ⟨disk, hdisk, -⟩ := hrecovers k []
    rw [walRecoverStops, List.foldl_nil, hfailure] at hdisk
    cases hdisk
  · intro hfits k stops
    by_cases hcomplete : (walLogOf crc salt header pager).length < k
    · have hstop : Committed crc path db.file _ _ :=
        committed_of_stop htotal hfits salt header ⟨db.file, log⟩ hcomplete
      rw [if_pos hcomplete, ← applyAll_walStatementEdits]
      exact (hstop.walRecoverStops stops).walRecover
    · have hstop : Uncommitted crc path db.file _ :=
        uncommitted_of_stop htotal hfits salt header ⟨db.file, log⟩ hsettled
          (Nat.le_of_not_lt hcomplete)
      rw [if_neg hcomplete]
      exact (hstop.walRecoverStops stops).walRecover

end

end

/-- The first page of a new file. -/
def firstPagePager (page : PageImage .least) : FilePager .least :=
  ((FilePager.new (Database.init .least).file 0 0).appendPage page).1

theorem totalPages_firstPagePager (page : PageImage .least) :
    (firstPagePager page).totalPages = 1 := by
  simp [firstPagePager, FilePager.appendPage, Database.init]

theorem fitsLog_firstPagePager (page : PageImage .least) : (firstPagePager page).FitsLog := by
  have hnumbers : (firstPagePager page).pageNumbers.length ≤ 1 := by
    refine (List.perm_insertionSort _ _).length_eq.le.trans ?_
    exact List.length_filter_le _ _
  have hsize : PageSize.least.val = 17 := rfl
  rw [FilePager.FitsLog, walLogSize, hsize, walHeaderSize, walFrameHeaderSize, headerSize]
  omega

theorem walRecover_after_stop_first_page :
    ∃ disk,
      walRecover (fun _ => 0) "db"
        (walRecoverStops (fun _ => 0) "db"
          (Disk.applyAll ⟨(Database.init .least).file, none⟩
            ((walCommitEdits (fun _ => 0) "db" 7 (.new .least)
              (firstPagePager ⟨0, 16, [0], rfl⟩)).take 5000)) [3]) = .ok disk ∧
      walNeedsRecovery disk.log = false ∧
      disk.file =
        if (walLogOf (fun _ => 0) 7 (.new .least)
            (firstPagePager ⟨0, 16, [0], rfl⟩)).length < 5000 then
          ((Database.init .least).commit (.new .least)
            (firstPagePager ⟨0, 16, [0], rfl⟩)).file
        else (Database.init .least).file := by
  have htotal := totalPages_firstPagePager ⟨0, 16, [0], rfl⟩
  exact (walRecover_after_stop (by omega) (fun _ => 0) "db" 7 (.init .least) (.new .least)
    rfl).mpr (fitsLog_firstPagePager _) 5000 [3]

/-- The first statement of a new file, which adds `n` pages to it. -/
def newPagesPager (size : PageSize) (n : Nat) : FilePager size :=
  { FilePager.new (Database.init size).file 0 0 with
    totalPages := n
    dirty := ⟨(List.range n).map fun i => (i, Database.zeroBlock), by
      simpa [Function.comp_def] using List.nodup_range⟩ }

theorem length_pageNumbers_newPagesPager (size : PageSize) (n : Nat) :
    (newPagesPager size n).pageNumbers.length = n := by
  have hkeys : (newPagesPager size n).dirty.keys = List.range n := by
    simp [newPagesPager, OrderedMap.keys, Function.comp_def]
  have hfilter : (List.range n).filter (· < n) = List.range n := by
    simp
  rw [FilePager.pageNumbers, List.length_insertionSort, hkeys]
  change ((List.range n).filter (· < n)).length = n
  rw [hfilter, List.length_range]

theorem usualSize_fits : pageHeaderSize < 4096 ∧ 4096 ≤ maxPageSize := by decide

def PageSize.usual : PageSize := ⟨4096, usualSize_fits⟩

/-- The pages have 2 GiB. -/
theorem not_walRecover_after_stop_large :
    ¬∀ k, ∃ disk,
      walRecover (fun _ => 0) "db"
        (Disk.applyAll ⟨(Database.init .usual).file, none⟩
          ((walCommitEdits (fun _ => 0) "db" 7 (.new .usual)
            (newPagesPager .usual 524288)).take k)) = .ok disk := by
  have hlarge : ¬(newPagesPager .usual 524288).FitsLog := by
    rw [FilePager.FitsLog, length_pageNumbers_newPagesPager]
    decide
  obtain ⟨k, failure, hfailure⟩ := exists_walRecover_error (by decide : _ < 2 ^ 31) (fun _ => 0)
    "db" 7 (.new .usual) ⟨(Database.init .usual).file, none⟩ hlarge
  intro hrecovers
  obtain ⟨disk, hdisk⟩ := hrecovers k
  rw [hfailure] at hdisk
  cases hdisk

end Vsql
