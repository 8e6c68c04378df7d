import Vsql.Wal.Recovery

/-!
# What a commit reports, and what recovery does

Every file operation of `wal_commit` can fail.  A write that fails may still
have written some of its bytes, and a flush has no result at all, so the bytes
that it loses are lost silently.  `walReported_iff` says exactly for which
faults the result that is reported agrees with what recovery will do.
-/

namespace Vsql

open Foundation ByteFile

/-- The file operations that fail during a commit. -/
structure WalFaults where
  create : Bool
  /-- The write with this number to the log fails after so many bytes. -/
  write : Nat → Option Nat
  /-- Only so many bytes of the log are ever flushed. -/
  flush : Option Nat
  fsync : Bool
  openDir : Bool
  fsyncDir : Bool
  /-- Only so many bytes of the pages and the header are ever flushed. -/
  flushPages : Option Nat
  /-- Copying into the database file fails after so many edits. -/
  checkpoint : Option Nat
  seekState : Bool
  writeState : Bool
  /-- The state is written, but never flushed. -/
  flushState : Bool
  err : String

def WalFaults.noFaults : WalFaults where
  create := false
  write := fun _ => none
  flush := none
  fsync := false
  openDir := false
  fsyncDir := false
  flushPages := none
  checkpoint := none
  seekState := false
  writeState := false
  flushState := false
  err := ""

structure WalOutcome where
  result : Except Failure Unit
  edits : List DiskEdit

/-- The bytes that reach the log, and whether all of the writes succeeded. -/
def walWrite (fault : Nat → Option Nat) : Nat → List Bytes → Bytes × Bool
  | _, [] => ([], true)
  | i, data :: rest =>
      match fault i with
      | some k => (data.dropLast.take k, false)
      | none => (data ++ (walWrite fault (i + 1) rest).1,
          (walWrite fault (i + 1) rest).2)

def WalFaults.flushed (faults : WalFaults) (log : Bytes) : Bytes :=
  match faults.flush with
  | some k => log.take k
  | none => log

/-- The edits of which only the first `k` bytes are flushed. -/
def flushEdits : Nat → List Edit → List Edit
  | _, [] => []
  | k, .resize n :: edits => .resize n :: flushEdits k edits
  | 0, .byte _ _ :: edits => flushEdits 0 edits
  | k + 1, .byte x b :: edits => .byte x b :: flushEdits k edits

/-- The edits of a checkpoint that reach the database file. -/
def WalFaults.copied (faults : WalFaults) (edits : List Edit) : List Edit :=
  let flushed := match faults.flushPages with
    | some k => flushEdits k edits
    | none => edits
  match faults.checkpoint with
  | some k => flushed.take k
  | none => flushed

section

variable (crc : Bytes → UInt32) {size : PageSize}

def walWrites (salt : UInt32) (header : Header) (pager : FilePager size) :
    List Bytes :=
  walHeader crc salt size ::
    walFrames crc pager.changedPages.entries header.bytes pager.totalPages salt

/-- The rest of a commit, once the log has been written. -/
def walCommitWritten (faults : WalFaults) (path dir : String) (isNew : Bool)
    (header : Header) (pager : FilePager size) (logEdits : List DiskEdit) :
    WalOutcome :=
  if faults.fsync then
    ⟨.error (sqlstate58030 s!"cannot fsync {walPath path}: {faults.err}"), logEdits⟩
  else if isNew && faults.openDir then
    ⟨.error (sqlstate58030 s!"cannot open {dir}: {faults.err}"), logEdits⟩
  else if isNew && faults.fsyncDir then
    ⟨.error (sqlstate58030 s!"cannot fsync {dir}: {faults.err}"), logEdits⟩
  else
    let (edits, result) := walCheckpoint path (walCommitOf header pager)
    let checkpointed := logEdits ++ (faults.copied edits).map .file
    match result, faults.checkpoint with
    | .error _, _ | .ok (), some _ => ⟨.ok (), checkpointed⟩
    | .ok (), none =>
        if faults.seekState || faults.writeState then
          ⟨.error (sqlstate58030 faults.err), checkpointed⟩
        else if faults.flushState then ⟨.ok (), checkpointed⟩
        else ⟨.ok (), checkpointed ++ [walMarkCheckpointed]⟩

def walCommit (faults : WalFaults) (path dir : String) (isNew : Bool)
    (salt : UInt32) (header : Header) (pager : FilePager size) : WalOutcome :=
  let written := walWrite faults.write 0 (walWrites crc salt header pager)
  let logEdits := DiskEdit.createLog ::
    (writeEdits 0 (faults.flushed written.1)).map .log
  match faults.create, written.2 with
  | true, _ =>
      ⟨.error (sqlstate58030
        s!"unable to create {walPath path}: {faults.err}"), []⟩
  | false, false => ⟨.error (sqlstate58030 faults.err), logEdits⟩
  | false, true =>
      walCommitWritten faults path dir isNew header pager logEdits

/-- The edits of the database file. -/
def fileEdits (edits : List DiskEdit) : List Edit :=
  edits.filterMap fun
    | .file edit => some edit
    | _ => none

/-- After an error nothing of the statement is in the database file, and no
recovery puts it there.  After a success all of it is, or is put there by every
recovery, however many of them are stopped before they have finished. -/
def WalReported (path : String) (disk : Disk) (header : Header) (pager : FilePager size)
    (outcome : WalOutcome) : Prop :=
  match outcome.result with
  | .error _ =>
      fileEdits outcome.edits = [] ∧
      ∀ stops, fileEdits (walRecoverEdits crc path
        (walRecoverStops crc path (disk.applyAll outcome.edits) stops)) = []
  | .ok () =>
      fileEdits outcome.edits = walStatementEdits header pager ∨
      ∀ stops, (∀ k ∈ stops, k ≤ (walStatementEdits header pager).length) →
        fileEdits (walRecoverEdits crc path
          (walRecoverStops crc path (disk.applyAll outcome.edits) stops)) =
            walStatementEdits header pager

end

section

variable {size : PageSize}

/-- The whole log is flushed, and can be read back. -/
def WalFaults.KeepsLog (faults : WalFaults) (pager : FilePager size) : Prop :=
  pager.FitsLog ∧
  ∀ k, faults.flush = some k → walLogSize size pager.pageNumbers.length ≤ k

/-- The bytes of the pages and of the header. -/
def walCopiedSize (pager : FilePager size) : Nat :=
  pager.pageNumbers.length * size + headerSize

/-- Every page is flushed, and the file resized, before the checkpoint fails. -/
def WalFaults.CopiesAll (faults : WalFaults) (pager : FilePager size) : Prop :=
  (∀ k, faults.flushPages = some k → walCopiedSize pager ≤ k) ∧
  ∀ k, faults.checkpoint = some k → walCopiedSize pager + 1 ≤ k

/-- The faults after the log was written whose report is right: those of a sync
if the log is lost anyway, those of the checkpoint if it is not, or if they are
too late to matter, and none of writing the state. -/
def WalFaults.HonestWritten (faults : WalFaults) (isNew : Bool) (pager : FilePager size) :
    Prop :=
  if faults.fsync = true ∨ (isNew && (faults.openDir || faults.fsyncDir)) = true then
    ¬faults.KeepsLog pager
  else if faults.checkpoint ≠ none then
    faults.CopiesAll pager ∨ faults.KeepsLog pager
  else
    (faults.seekState || faults.writeState) = false ∧
      (faults.CopiesAll pager ∨ faults.flushState = true ∧ faults.KeepsLog pager)

/-- The faults whose report is right: also those before the commit frame is
complete. -/
def WalFaults.Honest (faults : WalFaults) (isNew : Bool) (pager : FilePager size) : Prop :=
  faults.create = true ∨
  (∃ i < pager.pageNumbers.length + 2, faults.write i ≠ none) ∨
  faults.HonestWritten isNew pager

end

/-! ## The writes to the log -/

theorem walWrite_ok {fault : Nat → Option Nat} {i : Nat} {writes : List Bytes}
    (h : ∀ j < writes.length, fault (i + j) = none) :
    walWrite fault i writes = (writes.flatten, true) := by
  induction writes generalizing i with
  | nil => rfl
  | cons data rest ih =>
      have hfirst : fault i = none := h 0 (by simp)
      have hrest := ih (i := i + 1) fun j hj => by
        have := h (j + 1) (by simpa using hj)
        rwa [Nat.add_assoc, Nat.add_comm 1 j]
      simp [walWrite, hfirst, hrest]

theorem walWrite_failed {fault : Nat → Option Nat} {i : Nat}
    {writes : List Bytes} (hwrites : ∀ data ∈ writes, data ≠ [])
    (h : ∃ j < writes.length, fault (i + j) ≠ none) :
    (walWrite fault i writes).2 = false ∧
      ∃ k < writes.flatten.length,
        (walWrite fault i writes).1 = writes.flatten.take k := by
  induction writes generalizing i with
  | nil =>
      obtain ⟨j, hj, -⟩ := h
      simp at hj
  | cons data rest ih =>
      have hdata : 0 < data.length :=
        List.length_pos_of_ne_nil (hwrites data (by simp))
      cases hfirst : fault i with
      | some k =>
          refine ⟨by simp [walWrite, hfirst], min k (data.length - 1), ?_, ?_⟩
          · simp
            omega
          · simp only [walWrite, hfirst, List.dropLast_eq_take, List.take_take,
              List.flatten_cons]
            rw [List.take_append_of_le_length (by omega)]
      | none =>
          have hlater : ∃ j < rest.length, fault (i + 1 + j) ≠ none := by
            obtain ⟨j, hj, hfault⟩ := h
            cases j with
            | zero => exact absurd hfirst hfault
            | succ j =>
                refine ⟨j, by simpa using hj, ?_⟩
                rwa [Nat.add_assoc, Nat.add_comm 1 j]
          obtain ⟨hfailed, k, hk, hbytes⟩ :=
            ih (fun d hd => hwrites d (List.mem_cons_of_mem _ hd)) hlater
          refine ⟨by simp [walWrite, hfirst, hfailed], data.length + k, ?_, ?_⟩
          · simpa using hk
          · have hall : data.take (data.length + k) = data :=
              List.take_of_length_le (by omega)
            simp [walWrite, hfirst, hbytes, List.take_append, hall]

section

variable {crc : Bytes → UInt32} {size : PageSize} {pager : FilePager size}
variable {salt : UInt32} {header : Header}

theorem walWrites_flatten :
    (walWrites crc salt header pager).flatten = walLogOf crc salt header pager :=
  List.flatten_cons

theorem walWrites_ne_nil :
    ∀ data ∈ walWrites crc salt header pager, data ≠ [] := by
  have hframes : ∀ (pages : List (Nat × Bytes)) checksum,
      ∀ data ∈ walFrames crc pages header.bytes pager.totalPages checksum,
        data ≠ [] := by
    intro pages
    induction pages with
    | nil =>
        intro checksum data hdata
        simp only [walFrames, List.mem_singleton] at hdata
        subst hdata
        simp [walFrame, walFrameFields]
    | cons page pages ih =>
        intro checksum data hdata
        simp only [walFrames, List.mem_cons] at hdata
        rcases hdata with rfl | hdata
        · simp [walFrame, walFrameFields]
        · exact ih _ data hdata
  intro data hdata
  rcases List.mem_cons.mp hdata with rfl | hdata
  · refine List.ne_nil_of_length_pos ?_
    simp [walHeaderSize]
  · exact hframes _ _ data hdata

theorem length_walWrites :
    (walWrites crc salt header pager).length = pager.pageNumbers.length + 2 := by
  have hframes : ∀ (pages : List (Nat × Bytes)) checksum,
      (walFrames crc pages header.bytes pager.totalPages checksum).length =
        pages.length + 1 := by
    intro pages
    induction pages with
    | nil => exact fun _ => rfl
    | cons page pages ih =>
        intro checksum
        rw [walFrames, List.length_cons, ih, List.length_cons]
  rw [walWrites, List.length_cons, hframes, length_changedPages]

theorem walCommit_of_written {faults : WalFaults} {path dir : String}
    {isNew : Bool} (hcreate : faults.create = false)
    (hwrite : ∀ i < (walWrites crc salt header pager).length,
      faults.write i = none) :
    walCommit crc faults path dir isNew salt header pager =
      walCommitWritten faults path dir isNew header pager (.createLog ::
        (writeEdits 0 (faults.flushed (walLogOf crc salt header pager))).map
          .log) := by
  have hwritten : walWrite faults.write 0 (walWrites crc salt header pager) =
      (walLogOf crc salt header pager, true) := by
    rw [walWrite_ok (by simpa using hwrite), walWrites_flatten]
  simp only [walCommit, hcreate, hwritten]

/-- Without faults a commit makes all of its edits. -/
theorem walCommit_noFaults (path dir : String) (isNew : Bool) :
    walCommit crc .noFaults path dir isNew salt header pager =
      ⟨.ok (), walCommitEdits crc path salt header pager⟩ := by
  rw [walCommit_of_written rfl fun _ _ => rfl]
  simp [walCommitWritten, WalFaults.noFaults, WalFaults.flushed, WalFaults.copied,
    walCommitEdits, walCheckpoint_walCommitOf]

end

/-! ## The edits of the database file -/

@[simp] theorem fileEdits_append (first second : List DiskEdit) :
    fileEdits (first ++ second) = fileEdits first ++ fileEdits second :=
  List.filterMap_append

@[simp] theorem fileEdits_file (edits : List Edit) :
    fileEdits (edits.map .file) = edits := by
  induction edits with
  | nil => rfl
  | cons edit edits ih => simp [fileEdits]

@[simp] theorem fileEdits_createLog (edits : List Edit) :
    fileEdits (.createLog :: edits.map .log) = [] := by
  induction edits with
  | nil => rfl
  | cons edit edits ih => simp [fileEdits]

@[simp] theorem fileEdits_mark : fileEdits [walMarkCheckpointed] = [] := rfl

/-- Which writes are flushed, and that a resize is not lost. -/
theorem flushEdits_redoEdits (k : Nat) {limit : Nat} {writes : List Edit}
    (hbelow : WritesBelow limit writes) :
    flushEdits k (redoEdits limit writes) = redoEdits limit (writes.take k) := by
  rw [redoEdits, redoEdits]
  induction writes generalizing k with
  | nil => simp [flushEdits]
  | cons edit writes ih =>
      obtain ⟨x, b, rfl, -⟩ := hbelow edit (List.mem_cons_self ..)
      have hrest := fun k => ih k fun e he => hbelow e (List.mem_cons_of_mem _ he)
      cases k with
      | zero => simpa [flushEdits] using hrest 0
      | succ k => simpa [flushEdits] using hrest k

section

variable {crc : Bytes → UInt32} {path : String} {size : PageSize} {pager : FilePager size}
variable {salt : UInt32} {header : Header}

theorem walStatementEdits_ne_nil : walStatementEdits header pager ≠ [] := by
  simp [walStatementEdits, redoEdits]

theorem length_pageWrites {pages : List (Nat × Bytes)} {pageSize : Nat}
    (hpages : ∀ page ∈ pages, page.2.length = pageSize) :
    (pageWrites pageSize pages).length = pages.length * pageSize := by
  induction pages with
  | nil => simp [pageWrites]
  | cons page pages ih =>
      have hrest := ih fun p hp => hpages p (List.mem_cons_of_mem _ hp)
      rw [pageWrites] at hrest ⊢
      rw [List.flatMap_cons, List.length_append, length_writeEdits, hrest,
        hpages page (List.mem_cons_self ..), List.length_cons, Nat.succ_mul, Nat.add_comm]

/-- The checkpoint is complete if everything is flushed, and nothing fails before its end. -/
theorem copied_eq_iff (faults : WalFaults) :
    faults.copied (walStatementEdits header pager) = walStatementEdits header pager ↔
      faults.CopiesAll pager := by
  have hlength : (pageWrites size pager.changedPages.entries ++
      writeEdits 0 header.bytes).length = walCopiedSize pager := by
    rw [List.length_append, length_pageWrites fun page hpage => (changedPages_mem hpage).2,
      length_changedPages, length_writeEdits, Header.length_bytes, walCopiedSize]
  have hflush := fun k => flushEdits_redoEdits k (writesBelow_statement header pager)
  unfold WalFaults.copied WalFaults.CopiesAll walStatementEdits
  generalize pageWrites size pager.changedPages.entries ++ writeEdits 0 header.bytes = writes
    at hlength hflush
  generalize headerSize + size * pager.totalPages = limit at hflush
  constructor
  · intro hall
    have hsame := congrArg List.length hall
    cases hpages : faults.flushPages <;> cases hfault : faults.checkpoint <;>
      simp only [hpages, hfault, hflush] at hsame <;>
      simp [redoEdits, hlength] at hsame ⊢ <;> omega
  · rintro ⟨hpages, hfault⟩
    have htake : ∀ k, faults.flushPages = some k → writes.take k = writes := fun k hk =>
      List.take_of_length_le (hlength.trans_le (hpages k hk))
    have hfull : ∀ k, faults.checkpoint = some k →
        (redoEdits limit writes).take k = redoEdits limit writes := fun k hk =>
      List.take_of_length_le (by simpa [redoEdits, hlength] using hfault k hk)
    cases hflushPages : faults.flushPages with
    | none =>
        cases hcheckpoint : faults.checkpoint with
        | none => rfl
        | some k => exact hfull k hcheckpoint
    | some j =>
        cases hcheckpoint : faults.checkpoint with
        | none => simp only [hflush, htake j hflushPages]
        | some k =>
            simp only [hflush, htake j hflushPages]
            exact hfull k hcheckpoint

theorem copied_ne_nil {faults : WalFaults} (h : faults.checkpoint = none) :
    faults.copied (walStatementEdits header pager) ≠ [] := by
  have hflush := fun k => flushEdits_redoEdits k (writesBelow_statement header pager)
  unfold WalFaults.copied walStatementEdits
  rw [h]
  cases faults.flushPages with
  | none => simp [redoEdits]
  | some k =>
      simp only [hflush]
      simp [redoEdits]

/-! ## Logs that are not applied -/

/-- Recovery from such a log changes nothing in the database file. -/
def Unapplied (crc : Bytes → UInt32) (path : String) (log : Option Bytes) : Prop :=
  (walRecoverRun crc path log).1 = [] ∨ (walRecoverRun crc path log).1 = [walMarkCheckpointed]

theorem unapplied_of_settled {log : Option Bytes} (h : walNeedsRecovery log = false) :
    Unapplied crc path log :=
  .inl (by rw [walRecoverRun_of_settled h])

theorem unapplied_of_load {log : Bytes} (h : walLoad crc path log = .ok none ∨
    ∃ failure, walLoad crc path log = .error failure) :
    Unapplied crc path (some log) := by
  by_cases hneeds : walNeedsRecovery (some log) = true
  · unfold Unapplied
    rw [walRecoverRun_of_load hneeds]
    obtain hnone | ⟨failure, hfailure⟩ := h
    · exact .inr (by rw [hnone])
    · exact .inl (by rw [hfailure])
  · exact unapplied_of_settled (Bool.eq_false_of_not_eq_true hneeds)

theorem Unapplied.walRecoverStopped {disk : Disk} (h : Unapplied crc path disk.log) (k : Nat) :
    Unapplied crc path (walRecoverStopped crc path disk k).log := by
  unfold Vsql.walRecoverStopped walRecoverEdits
  obtain hnone | hmark := h
  · rw [hnone, List.take_nil]
    exact .inl hnone
  · rw [hmark]
    cases k with
    | zero => exact .inr hmark
    | succ k =>
        rw [List.take_of_length_le (by simp)]
        exact unapplied_of_settled disk.applyAll_mark.2

theorem Unapplied.fileEdits_eq_nil {disk : Disk} (h : Unapplied crc path disk.log)
    (stops : List Nat) :
    fileEdits (walRecoverEdits crc path (walRecoverStops crc path disk stops)) = [] := by
  have hstops := walRecoverStops_induction
    (motive := fun disk => Unapplied crc path disk.log)
    (fun _ k h => h.walRecoverStopped k) h stops
  obtain hnone | hmark := hstops
  · rw [walRecoverEdits, hnone]
    rfl
  · rw [walRecoverEdits, hmark, fileEdits_mark]

/-- Until a recovery has finished, the log stays complete. -/
theorem walRecoverStops_log {disk : Disk} {edits : List Edit}
    (hrun : walRecoverRun crc path disk.log = (edits.map .file ++ [walMarkCheckpointed], .ok ()))
    {stops : List Nat} (hstops : ∀ k ∈ stops, k ≤ edits.length) :
    (walRecoverStops crc path disk stops).log = disk.log := by
  induction stops generalizing disk with
  | nil => rfl
  | cons k stops ih =>
      have hk := hstops k (by simp)
      have hlog : (walRecoverStopped crc path disk k).log = disk.log := by
        rw [walRecoverStopped, walRecoverEdits, hrun,
          List.take_append_of_le_length (by simpa using hk), ← List.map_take,
          Disk.applyAll_file]
      rw [← hlog] at hrun
      exact (ih hrun fun k hk => hstops k (List.mem_cons_of_mem _ hk)).trans hlog

/-! ## Reports -/

section

variable {disk : Disk} {edits : List DiskEdit}

theorem walReported_error_of_unapplied (h : Unapplied crc path (disk.applyAll edits).log)
    (failure : Failure) :
    WalReported crc path disk header pager ⟨.error failure, edits⟩ ↔ fileEdits edits = [] :=
  ⟨And.left, fun hedits => ⟨hedits, h.fileEdits_eq_nil⟩⟩

theorem walReported_ok_of_unapplied (h : Unapplied crc path (disk.applyAll edits).log) :
    WalReported crc path disk header pager ⟨.ok (), edits⟩ ↔
      fileEdits edits = walStatementEdits header pager := by
  refine or_iff_left fun hstops => ?_
  have hall := hstops [] (by simp)
  rw [h.fileEdits_eq_nil] at hall
  exact walStatementEdits_ne_nil hall.symm

variable (hrun : walRecoverRun crc path (disk.applyAll edits).log =
  ((walStatementEdits header pager).map .file ++ [walMarkCheckpointed], .ok ()))
include hrun

/-- An error that leaves the whole log is a false report. -/
theorem not_walReported_error (failure : Failure) :
    ¬WalReported crc path disk header pager ⟨.error failure, edits⟩ := by
  rintro ⟨-, hstops⟩
  have hnone := hstops []
  rw [walRecoverStops, List.foldl_nil, walRecoverEdits, hrun, fileEdits_append,
    fileEdits_file] at hnone
  exact walStatementEdits_ne_nil (List.append_eq_nil_iff.mp hnone).1

/-- A success that leaves the whole log is a true report. -/
theorem walReported_ok_of_complete :
    WalReported crc path disk header pager ⟨.ok (), edits⟩ := by
  refine .inr fun stops hstops => ?_
  rw [walRecoverEdits, walRecoverStops_log hrun hstops, hrun, fileEdits_append, fileEdits_file,
    fileEdits_mark, List.append_nil]

end

variable (htotal : pager.totalPages < 2 ^ 31)
include htotal

/-- A log that is torn, or too large to be read, isn't applied. -/
theorem unapplied_of_not_keepsLog {faults : WalFaults} {log : Option Bytes}
    (hlog : log = some (faults.flushed (walLogOf crc salt header pager)))
    (hlost : ¬faults.KeepsLog pager) : Unapplied crc path log := by
  rw [hlog]
  have hsize : (walLogOf crc salt header pager).length =
      walLogSize size pager.pageNumbers.length := length_walLogOf salt header pager
  have hcomplete (hlarge : ¬pager.FitsLog) :
      Unapplied crc path (some (walLogOf crc salt header pager)) := by
    obtain ⟨hfits, -⟩ | ⟨-, hfailure⟩ := walLoad_walLogOf htotal salt header
    · exact absurd hfits hlarge
    · exact unapplied_of_load (.inr hfailure)
  cases hflush : faults.flush with
  | none =>
      have hlarge : ¬pager.FitsLog := fun hfits => hlost ⟨hfits, by simp [hflush]⟩
      simpa [WalFaults.flushed, hflush] using hcomplete hlarge
  | some k =>
      simp only [WalFaults.flushed, hflush]
      by_cases hk : k < (walLogOf crc salt header pager).length
      · obtain hnone | ⟨-, hfailure⟩ := walLoad_torn htotal salt header hk
        · exact unapplied_of_load (.inl hnone)
        · exact unapplied_of_load (.inr hfailure)
      · rw [List.take_of_length_le (by omega)]
        refine hcomplete fun hfits => hlost ⟨hfits, fun j hj => ?_⟩
        rw [hflush] at hj
        obtain rfl := Option.some.inj hj
        omega

/-- A log that is kept is applied. -/
theorem walRecoverRun_of_keepsLog {faults : WalFaults} {log : Option Bytes}
    (hlog : log = some (faults.flushed (walLogOf crc salt header pager)))
    (hkeeps : faults.KeepsLog pager) :
    walRecoverRun crc path log =
      ((walStatementEdits header pager).map .file ++ [walMarkCheckpointed], .ok ()) := by
  obtain ⟨hfits, hflushed⟩ := hkeeps
  have hwhole : faults.flushed (walLogOf crc salt header pager) =
      walLogOf crc salt header pager := by
    cases hflush : faults.flush with
    | none => simp [WalFaults.flushed, hflush]
    | some k =>
        have hk : (walLogOf crc salt header pager).length ≤ k :=
          (length_walLogOf salt header pager).trans_le (hflushed k hflush)
        simp [WalFaults.flushed, hflush, List.take_of_length_le hk]
  rw [hlog, hwhole]
  exact walRecoverRun_walLogOf htotal hfits salt header

section

variable {faults : WalFaults} {disk : Disk} {edits : List DiskEdit}
variable (hlog : (disk.applyAll edits).log =
  some (faults.flushed (walLogOf crc salt header pager)))
include hlog

theorem walReported_error_iff (failure : Failure) :
    WalReported crc path disk header pager ⟨.error failure, edits⟩ ↔
      ¬faults.KeepsLog pager ∧ fileEdits edits = [] := by
  by_cases hkeeps : faults.KeepsLog pager
  · simp [hkeeps, not_walReported_error (walRecoverRun_of_keepsLog htotal hlog hkeeps)]
  · simpa [hkeeps] using
      walReported_error_of_unapplied (unapplied_of_not_keepsLog htotal hlog hkeeps) failure

theorem walReported_ok_iff :
    WalReported crc path disk header pager ⟨.ok (), edits⟩ ↔
      fileEdits edits = walStatementEdits header pager ∨ faults.KeepsLog pager := by
  by_cases hkeeps : faults.KeepsLog pager
  · simp [hkeeps, walReported_ok_of_complete (walRecoverRun_of_keepsLog htotal hlog hkeeps)]
  · simpa [hkeeps] using
      walReported_ok_of_unapplied (unapplied_of_not_keepsLog htotal hlog hkeeps)

end

/-- The log of a commit of which some write failed isn't applied. -/
theorem unapplied_of_failed_write {faults : WalFaults}
    (h : ∃ i < (walWrites crc salt header pager).length, faults.write i ≠ none) :
    Unapplied crc path (some (faults.flushed
      (walWrite faults.write 0 (walWrites crc salt header pager)).1)) := by
  obtain ⟨-, k, hk, hbytes⟩ := walWrite_failed (i := 0) walWrites_ne_nil (by simpa using h)
  rw [walWrites_flatten] at hk hbytes
  have hflushed : ∃ j < (walLogOf crc salt header pager).length,
      faults.flushed ((walLogOf crc salt header pager).take k) =
        (walLogOf crc salt header pager).take j := by
    cases hflush : faults.flush with
    | none => exact ⟨k, hk, by simp [WalFaults.flushed, hflush]⟩
    | some n =>
        refine ⟨min n k, by omega, ?_⟩
        simp [WalFaults.flushed, hflush, List.take_take]
  obtain ⟨j, hj, hprefix⟩ := hflushed
  rw [hbytes, hprefix]
  obtain hnone | ⟨-, hfailure⟩ := walLoad_torn htotal salt header hj
  · exact unapplied_of_load (.inl hnone)
  · exact unapplied_of_load (.inr hfailure)

private theorem walReported_written_iff (faults : WalFaults) (path dir : String) (isNew : Bool)
    (disk : Disk) :
    WalReported crc path disk header pager
        (walCommitWritten faults path dir isNew header pager (.createLog ::
          (writeEdits 0 (faults.flushed (walLogOf crc salt header pager))).map .log)) ↔
      faults.HonestWritten isNew pager := by
  have hcreated := applyAll_createLog disk (faults.flushed (walLogOf crc salt header pager))
  have hcopied : faults.copied (walStatementEdits header pager) = _ ↔ _ :=
    copied_eq_iff faults
  unfold walCommitWritten WalFaults.HonestWritten
  rw [walCheckpoint_walCommitOf]
  generalize hlogEdits : DiskEdit.createLog ::
    (writeEdits 0 (faults.flushed (walLogOf crc salt header pager))).map .log = logEdits
    at hcreated
  have hnone : fileEdits logEdits = [] := hlogEdits ▸ fileEdits_createLog _
  have hlog : (disk.applyAll logEdits).log =
      some (faults.flushed (walLogOf crc salt header pager)) := by
    rw [hcreated]
  -- A sync that fails is reported, with nothing copied.
  have hsync (failure : Failure) : WalReported crc path disk header pager
      ⟨.error failure, logEdits⟩ ↔ ¬faults.KeepsLog pager := by
    rw [walReported_error_iff htotal hlog, and_iff_left hnone]
  generalize hcheckpointed : logEdits ++
    (faults.copied (walStatementEdits header pager)).map .file = checkpointed
  have hfile : fileEdits checkpointed = faults.copied (walStatementEdits header pager) := by
    rw [← hcheckpointed, fileEdits_append, hnone, fileEdits_file, List.nil_append]
  have hlog' : (disk.applyAll checkpointed).log =
      some (faults.flushed (walLogOf crc salt header pager)) := by
    rw [← hcheckpointed, Disk.applyAll_append, Disk.applyAll_file, hlog]
  have hok : WalReported crc path disk header pager ⟨.ok (), checkpointed⟩ ↔
      faults.CopiesAll pager ∨ faults.KeepsLog pager := by
    rw [walReported_ok_iff htotal hlog', hfile, hcopied]
  -- Once the state is written, recovery copies nothing.
  have hmarked : WalReported crc path disk header pager
      ⟨.ok (), checkpointed ++ [walMarkCheckpointed]⟩ ↔ faults.CopiesAll pager := by
    have hsettled : walNeedsRecovery
        (disk.applyAll (checkpointed ++ [walMarkCheckpointed])).log = false := by
      rw [Disk.applyAll_append]
      exact (Disk.applyAll_mark _).2
    rw [walReported_ok_of_unapplied (unapplied_of_settled hsettled), fileEdits_append, hfile,
      fileEdits_mark, List.append_nil, hcopied]
  cases faults.fsync with
  | true => simpa using hsync _
  | false =>
      cases hopen : (isNew && faults.openDir) with
      | true => simpa [Bool.and_or_distrib_left, hopen] using hsync _
      | false =>
          cases hdir : (isNew && faults.fsyncDir) with
          | true => simpa [Bool.and_or_distrib_left, hdir] using hsync _
          | false =>
              simp only [Bool.and_or_distrib_left, hopen, hdir, Bool.or_self,
                Bool.false_eq_true, if_false, or_self, hcheckpointed]
              cases hcheckpoint : faults.checkpoint with
              | some k => simpa using hok
              | none =>
                  simp only [ne_eq, not_true, if_false]
                  cases faults.seekState || faults.writeState with
                  | true =>
                      -- The database file has already been changed.
                      simpa [walReported_error_iff htotal hlog', hfile] using
                        fun _ => copied_ne_nil hcheckpoint
                  | false =>
                      cases faults.flushState with
                      | true => simpa using hok
                      | false => simpa using hmarked

/-- The report of a commit is right exactly for these faults. -/
theorem walReported_iff (faults : WalFaults) (path dir : String)
    {disk : Disk} (hsettled : walNeedsRecovery disk.log = false) :
    WalReported crc path disk header pager
        (walCommit crc faults path dir disk.log.isNone salt header pager) ↔
      faults.Honest disk.log.isNone pager := by
  unfold WalFaults.Honest
  have hwrites : (walWrites crc salt header pager).length = _ := length_walWrites
  rw [← hwrites]
  have hcreated (failure : Failure) :
      WalReported crc path disk header pager ⟨.error failure, []⟩ := by
    have hunapplied : Unapplied crc path (disk.applyAll []).log := unapplied_of_settled hsettled
    exact (walReported_error_of_unapplied hunapplied failure).mpr rfl
  by_cases hwrite : ∃ i < (walWrites crc salt header pager).length,
      faults.write i ≠ none
  · simp only [hwrite, true_or, or_true, iff_true]
    obtain ⟨hfailed, -⟩ := walWrite_failed (i := 0) walWrites_ne_nil
      (by simpa using hwrite)
    unfold walCommit
    cases faults.create with
    | true => exact hcreated _
    | false =>
        simp only [hfailed]
        refine (walReported_error_of_unapplied ?_ _).mpr (fileEdits_createLog _)
        rw [applyAll_createLog]
        exact unapplied_of_failed_write htotal hwrite
  · have hnone : ∀ i < (walWrites crc salt header pager).length,
        faults.write i = none := by
      intro i hi
      by_contra hfault
      exact hwrite ⟨i, hi, hfault⟩
    simp only [hwrite, false_or]
    cases hcreate : faults.create with
    | true =>
        simp only [true_or, iff_true, walCommit, hcreate]
        exact hcreated _
    | false =>
        simp only [Bool.false_eq_true, false_or]
        rw [walCommit_of_written hcreate hnone]
        exact walReported_written_iff htotal faults path dir _ disk

end

/-- A commit without faults, and one whose log is lost before its sync fails. -/
theorem walReported_iff_first_page :
    WalReported (fun _ => 0) "db" ⟨(Database.init .least).file, none⟩ (.new .least)
        (firstPagePager ⟨0, 16, [0], rfl⟩)
        ⟨.ok (), walCommitEdits (fun _ => 0) "db" 7 (.new .least)
          (firstPagePager ⟨0, 16, [0], rfl⟩)⟩ ∧
      WalReported (fun _ => 0) "db" ⟨(Database.init .least).file, none⟩ (.new .least)
        (firstPagePager ⟨0, 16, [0], rfl⟩)
        (walCommit (fun _ => 0) { WalFaults.noFaults with flush := some 40, fsync := true }
          "db" "." true 7 (.new .least) (firstPagePager ⟨0, 16, [0], rfl⟩)) := by
  have htotal : (firstPagePager ⟨0, 16, [0], rfl⟩).totalPages < 2 ^ 31 := by
    rw [totalPages_firstPagePager]
    decide
  have hsettled : walNeedsRecovery
      (Disk.mk (Database.init .least).file none).log = false := rfl
  have hiff (faults : WalFaults) :
      WalReported (fun _ => 0) "db" ⟨(Database.init .least).file, none⟩ (.new .least)
          (firstPagePager ⟨0, 16, [0], rfl⟩)
          (walCommit (fun _ => 0) faults "db" "." true 7 (.new .least)
            (firstPagePager ⟨0, 16, [0], rfl⟩)) ↔
        faults.Honest true (firstPagePager ⟨0, 16, [0], rfl⟩) :=
    walReported_iff htotal faults "db" "." hsettled
  constructor
  · rw [← walCommit_noFaults "db" "." true, hiff]
    refine .inr (.inr ?_)
    simp [WalFaults.HonestWritten, WalFaults.CopiesAll, WalFaults.noFaults]
  · rw [hiff]
    refine .inr (.inr ((if_pos (.inl rfl)).mpr fun hkeeps => ?_))
    have hlog := hkeeps.2 40 rfl
    rw [walLogSize, headerSize] at hlog
    omega

/-- The sync of the log of a new file fails.  The client is told so, but the
statement is in the log and takes effect. -/
theorem not_walReported_of_fsync :
    ¬WalReported (fun _ => 0) "db" ⟨(Database.init .least).file, none⟩ (.new .least)
      (firstPagePager ⟨0, 16, [0], rfl⟩)
      (walCommit (fun _ => 0) { WalFaults.noFaults with fsync := true } "db" "."
        true 7 (.new .least) (firstPagePager ⟨0, 16, [0], rfl⟩)) := by
  have htotal := totalPages_firstPagePager ⟨0, 16, [0], rfl⟩
  rw [walCommit_of_written rfl fun _ _ => rfl]
  refine not_walReported_error ?_ _
  rw [applyAll_createLog]
  exact walRecoverRun_walLogOf (by omega) (fitsLog_firstPagePager _) 7 (.new .least)

end Vsql
