import Vsql.Cli.ImportSql
import Vsql.Cli.JsonSound

/-!
# How a file is read

However the reader cuts a file, the statements and the records in it are the same, and so are
their lines and where they end.
-/

namespace Vsql.Cli

open Foundation
open Foundation.ReadingProgram

def fileOf (chunks : List Chunk) : Bytes := (chunks.map Subtype.val).flatten

namespace SqlImport

variable {σ : Type} (sql : SqlImport σ)

/-- The statements of the whole file. -/
theorem importSql_eq (s : σ) (chunks : List Chunk) :
    sql.importSql s (.ofChunks chunks) =
      sql.runScript s (afterBom (fileOf chunks)).1 (afterBom (fileOf chunks)).2 1 := by
  have hskip := run_eq_items ImportMarks.advance .pastEnd ImportInput.source_gives looks_skipBom {}
    (Nat.zero_le (ImportInput.ofChunks chunks).ready)
  rw [ImportInput.rest_ofChunks] at hskip
  change Ended.map _ _ = skipBom.run ImportMarks.advance .pastEnd items {} (fileOf chunks) at hskip
  rw [run_skipBom] at hskip
  unfold importSql
  dsimp only
  rw [importLoop_eq]
  injection hskip with hresult hstate hleft
  rw [hstate, hleft]
  rfl

end SqlImport

/-! ## Records -/

/-- The results of reading records from a file, after the start of it, and how far through the
file each of them is. -/
def recordsRead {α : Type} (chunks : List Chunk) (record : Nat → InputProgram α) (n : Nat) :
    List (Except ReadFailure α × ImportMarks) :=
  let skipped := skipBom.run ImportMarks.advance .pastEnd ImportInput.source {} (.ofChunks chunks)
  (record ((fileOf chunks).length + 1)).runs ImportMarks.advance .pastEnd ImportInput.source n
    skipped.state skipped.left

/-- The results in a file that is in one piece. -/
def recordsOf {α : Type} (file : Bytes) (record : Nat → InputProgram α) (n : Nat) :
    List (Except ReadFailure α × ImportMarks) :=
  (record (file.length + 1)).runs ImportMarks.advance .pastEnd items n
    { offset := (afterBom file).2 } (afterBom file).1

theorem recordsRead_eq {α : Type} {record : Nat → InputProgram α}
    (hlooks : ∀ fuel, Looks 0 (record fuel)) (chunks : List Chunk) (n : Nat) :
    recordsRead chunks record n = recordsOf (fileOf chunks) record n := by
  have hskip := run_eq_items ImportMarks.advance .pastEnd ImportInput.source_gives looks_skipBom {}
    (Nat.zero_le (ImportInput.ofChunks chunks).ready)
  rw [ImportInput.rest_ofChunks] at hskip
  change Ended.map _ _ = skipBom.run ImportMarks.advance .pastEnd items {} (fileOf chunks) at hskip
  rw [run_skipBom] at hskip
  injection hskip with hresult hstate hleft
  unfold recordsRead recordsOf
  dsimp only
  rw [runs_eq_items _ _ ImportInput.source_gives (hlooks _), hstate, hleft]

/-- There is a record or an error each time. -/
theorem recordsOf_error {α : Type} {record : Nat → InputProgram α}
    (hgives : ∀ (fuel : Nat) (l : Bytes) (marks : ImportMarks), l.length < fuel →
      GivesFrom (record fuel) marks l fun _ _ _ => True) (file : Bytes) (n : Nat) :
    ∀ read ∈ recordsOf file record n, ∀ e, read.1 = .error e → ∃ message, e = .error message := by
  apply runs_of_meetsFrom
  intro marks left hleft
  apply hgives
  have hle := hleft.length_le
  unfold afterBom at hle
  split at hle
  · dsimp only at hle
    rw [List.length_drop] at hle
    omega
  · exact Nat.lt_succ_of_le hle

/-- A script runs its statements, and the records of CSV, TSV and JSON are the ones of the file in
one piece, however it's cut. -/
theorem streaming_eq_whole (chunks : List Chunk) :
    (∀ (σ : Type) (sql : SqlImport σ) (s : σ), sql.importSql s (.ofChunks chunks) =
        sql.runScript s (afterBom (fileOf chunks)).1 (afterBom (fileOf chunks)).2 1) ∧
      (∀ (separator : UInt8) (n : Nat),
        recordsRead chunks (delimitedRecord separator) n =
            recordsOf (fileOf chunks) (delimitedRecord separator) n ∧
          ∀ read ∈ recordsOf (fileOf chunks) (delimitedRecord separator) n, ∀ e,
            read.1 = .error e → ∃ message, e = .error message) ∧
      ∀ n : Nat, recordsRead chunks jsonRow n = recordsOf (fileOf chunks) jsonRow n ∧
        ∀ read ∈ recordsOf (fileOf chunks) jsonRow n, ∀ e,
          read.1 = .error e → ∃ message, e = .error message := by
  refine ⟨?_, ?_, ?_⟩
  · intro σ sql s
    exact sql.importSql_eq s chunks
  · intro separator n
    constructor
    · exact recordsRead_eq (looks_delimitedRecord separator) chunks n
    · apply recordsOf_error
      intro fuel l marks h
      exact (givesOn_delimitedRecord separator h marks).mono fun _ _ _ _ => trivial
  · intro n
    constructor
    · exact recordsRead_eq looks_jsonRow chunks n
    · apply recordsOf_error
      intro fuel l marks h
      exact (givesFrom_jsonRow h marks).mono fun _ _ _ _ => trivial

end Vsql.Cli
