import Mathlib.Data.List.DropRight
import Vsql.Cli.StatementRanges

/-!
# Importing a script

The statements are run as soon as their semicolons are read.  The text after the last semicolon
is kept and scanned again with the next chunk, while the lines and the bytes before it have
been counted.
-/

namespace Vsql.Cli

open Foundation

def isTrimmed (c : UInt8) : Bool := [32, 10, 9, 11, 12, 13].contains c

def trimSpace (text : Bytes) : Bytes := (text.dropWhile isTrimmed).rdropWhile isTrimmed

/-- What `text[i..j]` is. -/
def slice (text : Bytes) (i j : Nat) : Bytes := (text.drop i).take (j - i)

def newlines (text : Bytes) : Nat := text.count (byte '\n')

/-- What runs a statement, with its line and the bytes up to its end, and whether the import is
stopped. -/
structure SqlImport (σ : Type) where
  statement : σ → Bytes → Nat → Nat → σ
  stopped : σ → Bool

namespace SqlImport

variable {σ : Type} (sql : SqlImport σ)

structure RangesRun (σ : Type) where
  state : σ
  line : Nat
  counted : Nat
  stoppedAt : Option Nat

/-- The statements that end in the text that is pending. -/
def runRanges (pending : Bytes) (base : Nat) : List StatementRange → σ → Nat → Nat → RangesRun σ
  | [], s, line, counted => ⟨s, line, counted, none⟩
  | range :: ranges, s, line, counted =>
      let line := line + newlines (slice pending counted range.first)
      let done := base + range.stop + 1
      let s := sql.statement s (trimSpace (slice pending range.start range.stop)) line done
      if sql.stopped s then ⟨s, line, range.first, some done⟩
      else runRanges pending base ranges s line range.first

end SqlImport

/-! ## The chunks -/

namespace ImportInput

theorem takeChunk_rest (input : ImportInput) :
    input.takeChunk.1 ++ input.takeChunk.2.rest = input.rest := by
  unfold takeChunk
  split
  · exact input.rest_fill
  · rfl

theorem rest_of_takeChunk {input : ImportInput} (h : input.takeChunk.1 = []) : input.rest = [] := by
  unfold takeChunk at h
  split at h
  · change input.fill.buffer.drop input.fill.pos = [] at h
    rw [← rest_fill]
    unfold rest
    rw [h]
    unfold fill at h ⊢
    split at h
    · rfl
    · next chunk reader hreader =>
        have hempty := (List.append_eq_nil_iff.1 h).2
        exact absurd hempty chunk.property
  · next hfill =>
      change input.buffer.drop input.pos = [] at h
      rw [not_and_or, not_not, not_le] at hfill
      unfold rest
      rw [h]
      rcases hfill with hlt | heof
      · rw [List.drop_eq_nil_iff] at h
        omega
      · rw [input.reader_of_atEof heof]
        rfl

theorem length_takeChunk {input : ImportInput} (h : input.takeChunk.1 ≠ []) :
    input.takeChunk.2.rest.length < input.rest.length := by
  rw [← input.takeChunk_rest, List.length_append]
  have hpos := List.length_pos_iff.2 h
  omega

end ImportInput

namespace SqlImport

variable {σ : Type} (sql : SqlImport σ)

/-- The state at the end, and the bytes that have been used. -/
def importLoop (s : σ) (pending : Bytes) (base line : Nat) (input : ImportInput) : σ × Nat :=
  if sql.stopped s then (s, base)
  else
    let pending := pending ++ input.takeChunk.1
    let rest := (statementRanges pending).2
    let run := sql.runRanges pending base (statementRanges pending).1 s line 0
    match run.stoppedAt with
    | some done => (run.state, done)
    | none =>
        if input.takeChunk.1 = [] then
          match rest.first with
          | none => (run.state, base + pending.length)
          | some first =>
              (sql.statement run.state (trimSpace (pending.drop rest.start))
                  (run.line + newlines (slice pending run.counted first)) (base + pending.length),
                base + pending.length)
        else
          importLoop run.state (pending.drop rest.start) (base + rest.start)
            (run.line + newlines (slice pending run.counted rest.start)) input.takeChunk.2
termination_by input.rest.length
decreasing_by exact ImportInput.length_takeChunk ‹_›

/-- The statements of a file, from a state that is ready for the first one. -/
def importSql (s : σ) (input : ImportInput) : σ × Nat :=
  let skipped := skipBom.run ImportMarks.advance .pastEnd ImportInput.source {} input
  sql.importLoop s [] skipped.state.offset 1 skipped.left

end SqlImport

/-! ## The statements of the whole text -/

structure ScriptStatement where
  text : Bytes
  line : Nat
  done : Nat
  deriving DecidableEq

/-- The statement of a range in a text that starts at `base` and on `line`. -/
def StatementRange.statement (text : Bytes) (base line : Nat) (range : StatementRange) :
    ScriptStatement where
  text := trimSpace (slice text range.start range.stop)
  line := line + newlines (text.take range.first)
  done := base + range.stop + 1

/-- The statement without a semicolon. -/
def RestRange.statement? (text : Bytes) (base line : Nat) (rest : RestRange) :
    Option ScriptStatement :=
  rest.first.map fun first =>
    { text := trimSpace (text.drop rest.start)
      line := line + newlines (text.take first)
      done := base + text.length }

def scriptStatements (text : Bytes) (base line : Nat) : List ScriptStatement :=
  (statementRanges text).1.map (fun range => range.statement text base line) ++
    ((statementRanges text).2.statement? text base line).toList

namespace SqlImport

variable {σ : Type} (sql : SqlImport σ)

/-- Runs statements until one stops the import, and returns where that one ends. -/
def runStatements : List ScriptStatement → σ → σ × Option Nat
  | [], s => (s, none)
  | statement :: statements, s =>
      let s := sql.statement s statement.text statement.line statement.done
      if sql.stopped s then (s, some statement.done) else runStatements statements s

/-- The whole text, from `base` on. -/
def runScript (s : σ) (text : Bytes) (base line : Nat) : σ × Nat :=
  if sql.stopped s then (s, base)
  else
    let run := sql.runStatements (scriptStatements text base line) s
    (run.1, run.2.getD (base + text.length))

end SqlImport

/-! ## Counting lines -/

theorem newlines_append (a b : Bytes) : newlines (a ++ b) = newlines a + newlines b :=
  List.count_append

theorem newlines_slice (text : Bytes) {i j : Nat} (h : i ≤ j) :
    newlines (text.take i) + newlines (slice text i j) = newlines (text.take j) := by
  have htake : text.take j = text.take i ++ slice text i j := by
    have hsum : j = i + (j - i) := by omega
    rw [slice, hsum, List.take_add, ← hsum]
  rw [htake, newlines_append]

namespace SqlImport

variable {σ : Type} (sql : SqlImport σ)

/-- Each line is counted once. -/
theorem runRanges_line {ranges : List StatementRange} {counted : Nat}
    (hsorted : ranges.Pairwise fun r r' => r.first ≤ r'.first)
    (hcounted : ∀ r ∈ ranges, counted ≤ r.first) (pending : Bytes) (base line : Nat) (s : σ) :
    (sql.runRanges pending base ranges s (line + newlines (pending.take counted)) counted).line =
      line + newlines (pending.take (sql.runRanges pending base ranges s
        (line + newlines (pending.take counted)) counted).counted) := by
  induction ranges generalizing counted s with
  | nil => rfl
  | cons range ranges ih =>
      rw [List.pairwise_cons] at hsorted
      have hnext : line + newlines (pending.take counted) +
          newlines (slice pending counted range.first) =
            line + newlines (pending.take range.first) := by
        rw [Nat.add_assoc, newlines_slice pending (hcounted range (List.mem_cons_self ..))]
      unfold runRanges
      dsimp only
      rw [hnext]
      split
      · rfl
      · exact ih hsorted.2 hsorted.1 _

theorem runRanges_statements {ranges : List StatementRange} {counted : Nat}
    (hsorted : ranges.Pairwise fun r r' => r.first ≤ r'.first)
    (hcounted : ∀ r ∈ ranges, counted ≤ r.first) (pending : Bytes) (base line : Nat) (s : σ) :
    ((sql.runRanges pending base ranges s (line + newlines (pending.take counted)) counted).state,
        (sql.runRanges pending base ranges s (line + newlines (pending.take counted))
          counted).stoppedAt) =
      sql.runStatements (ranges.map fun range => range.statement pending base line) s := by
  induction ranges generalizing counted s with
  | nil => rfl
  | cons range ranges ih =>
      rw [List.pairwise_cons] at hsorted
      have hnext : line + newlines (pending.take counted) +
          newlines (slice pending counted range.first) =
            line + newlines (pending.take range.first) := by
        rw [Nat.add_assoc, newlines_slice pending (hcounted range (List.mem_cons_self ..))]
      rw [List.map_cons]
      unfold runRanges runStatements StatementRange.statement
      dsimp only
      rw [hnext]
      split
      · rfl
      · exact ih hsorted.2 hsorted.1 _

theorem counted_runRanges_le {ranges : List StatementRange} {counted k : Nat} (h : counted ≤ k)
    (hranges : ∀ r ∈ ranges, r.first ≤ k) (pending : Bytes) (base line : Nat) (s : σ) :
    (sql.runRanges pending base ranges s line counted).counted ≤ k := by
  induction ranges generalizing counted s line with
  | nil => exact h
  | cons range ranges ih =>
      rw [List.forall_mem_cons] at hranges
      unfold runRanges
      dsimp only
      split
      · exact hranges.1
      · exact ih hranges.1 hranges.2 _ _

theorem runStatements_append (a b : List ScriptStatement) (s : σ) :
    sql.runStatements (a ++ b) s =
      match sql.runStatements a s with
      | (s, none) => sql.runStatements b s
      | (s, some done) => (s, some done) := by
  induction a generalizing s with
  | nil => rfl
  | cons statement a ih =>
      rw [List.cons_append, runStatements, runStatements]
      split
      · rfl
      · exact ih _

end SqlImport

/-! ## One chunk more -/

theorem slice_append {a : Bytes} {j : Nat} (h : j ≤ a.length) (b : Bytes) (i : Nat) :
    slice (a ++ b) i j = slice a i j := by
  unfold slice
  rw [List.take_drop, List.take_drop]
  by_cases hij : i ≤ j
  · rw [Nat.add_sub_cancel' hij, List.take_append_of_le_length h]
  · have hzero : j - i = 0 := by omega
    rw [← List.take_drop, ← List.take_drop, hzero, List.take_zero, List.take_zero]

theorem drop_drop_append {a : Bytes} {k : Nat} (h : k ≤ a.length) (b : Bytes) (i : Nat) :
    (a ++ b).drop (i + k) = (a.drop k ++ b).drop i := by
  rw [Nat.add_comm, ← List.drop_drop, List.drop_append_of_le_length h]

theorem slice_shift {a : Bytes} {k : Nat} (h : k ≤ a.length) (b : Bytes) (i j : Nat) :
    slice (a ++ b) (i + k) (j + k) = slice (a.drop k ++ b) i j := by
  unfold slice
  rw [drop_drop_append h, Nat.add_sub_add_right]

theorem newlines_shift {a : Bytes} {k : Nat} (h : k ≤ a.length) (b : Bytes) (i : Nat) :
    newlines ((a ++ b).take (i + k)) =
      newlines (a.take k) + newlines ((a.drop k ++ b).take i) := by
  rw [Nat.add_comm, List.take_add, List.take_append_of_le_length h,
    List.drop_append_of_le_length h, newlines_append]

theorem statement_append {a : Bytes} {range : StatementRange} (h : range ∈ (statementRanges a).1)
    (b : Bytes) (base line : Nat) :
    range.statement (a ++ b) base line = range.statement a base line := by
  have hlt := statementRanges_lt h
  have hle := statementRanges_start_le a
  unfold StatementRange.statement
  rw [slice_append (by omega), List.take_append_of_le_length (by omega)]

theorem statement_shift {a : Bytes} {k : Nat} (h : k ≤ a.length) (b : Bytes) (base line : Nat)
    (range : StatementRange) :
    (range.shift k).statement (a ++ b) base line =
      range.statement (a.drop k ++ b) (base + k) (line + newlines (a.take k)) := by
  unfold StatementRange.statement StatementRange.shift
  rw [slice_shift h, newlines_shift h]
  simp only [ScriptStatement.mk.injEq, true_and]
  omega

theorem statement?_shift {a : Bytes} {k : Nat} (h : k ≤ a.length) (b : Bytes) (base line : Nat)
    (rest : RestRange) :
    (rest.shift k).statement? (a ++ b) base line =
      rest.statement? (a.drop k ++ b) (base + k) (line + newlines (a.take k)) := by
  unfold RestRange.statement? RestRange.shift
  rw [Option.map_map]
  congr 1
  funext first
  rw [Function.comp_apply, newlines_shift h, drop_drop_append h]
  simp only [ScriptStatement.mk.injEq, true_and, List.length_append, List.length_drop]
  omega

/-- What comes after the last semicolon is a script of its own, further on. -/
theorem scriptStatements_append (a b : Bytes) (base line : Nat) :
    scriptStatements (a ++ b) base line =
      ((statementRanges a).1.map fun range => range.statement a base line) ++
        scriptStatements (a.drop (statementRanges a).2.start ++ b)
          (base + (statementRanges a).2.start)
          (line + newlines (a.take (statementRanges a).2.start)) := by
  have hstart := statementRanges_start_le a
  unfold scriptStatements
  rw [statementRanges_append, List.map_append, List.map_map, List.append_assoc]
  congr 1
  · apply List.map_congr_left
    intro range hrange
    exact statement_append hrange b base line
  · congr 1
    · apply List.map_congr_left
      intro range _
      exact statement_shift hstart b base line range
    · dsimp only
      rw [statement?_shift hstart]

namespace SqlImport

variable {σ : Type} (sql : SqlImport σ)

theorem not_stopped_runStatements {l : List ScriptStatement} {s : σ} (hs : ¬sql.stopped s)
    (h : (sql.runStatements l s).2 = none) : ¬sql.stopped (sql.runStatements l s).1 := by
  induction l generalizing s with
  | nil => exact hs
  | cons statement l ih =>
      rw [runStatements] at h ⊢
      split at h
      · cases h
      · next hgoes =>
          rw [if_neg hgoes]
          exact ih hgoes h

theorem runRanges_eq (pending : Bytes) (base line : Nat) (s : σ) :
    let run := sql.runRanges pending base (statementRanges pending).1 s line 0
    (run.state, run.stoppedAt) =
        sql.runStatements ((statementRanges pending).1.map
          fun range => range.statement pending base line) s ∧
      run.line = line + newlines (pending.take run.counted) ∧
      run.counted ≤ (statementRanges pending).2.start := by
  have hsorted := statementRanges_sorted pending
  have hcounted : ∀ r ∈ (statementRanges pending).1, 0 ≤ r.first := fun r _ => Nat.zero_le r.first
  refine ⟨?_, ?_, ?_⟩
  · exact sql.runRanges_statements hsorted hcounted pending base line s
  · exact sql.runRanges_line hsorted hcounted pending base line s
  · apply sql.counted_runRanges_le (Nat.zero_le _)
    exact fun r hr => (statementRanges_lt hr).1.le

/-- The statements that end in the first text, and then the rest of it with what follows. -/
theorem runScript_append {s : σ} (hs : ¬sql.stopped s) (a b : Bytes) (base line : Nat) :
    let rest := (statementRanges a).2
    let run := sql.runRanges a base (statementRanges a).1 s line 0
    sql.runScript s (a ++ b) base line =
      match run.stoppedAt with
      | some done => (run.state, done)
      | none =>
          sql.runScript run.state (a.drop rest.start ++ b) (base + rest.start)
            (run.line + newlines (slice a run.counted rest.start)) := by
  intro rest run
  obtain ⟨hstatements, hline, hcounted⟩ := sql.runRanges_eq a base line s
  change (run.state, run.stoppedAt) = _ at hstatements
  change run.line = line + newlines (a.take run.counted) at hline
  have hlength : base + (a ++ b).length =
      base + rest.start + (a.drop rest.start ++ b).length := by
    have hstart : rest.start ≤ a.length := statementRanges_start_le a
    rw [List.length_append, List.length_append, List.length_drop]
    omega
  rw [hline, Nat.add_assoc, newlines_slice a hcounted]
  unfold runScript
  rw [if_neg hs, scriptStatements_append, runStatements_append, ← hstatements, hlength]
  cases hdone : run.stoppedAt with
  | some done => rfl
  | none =>
      have hgoes := sql.not_stopped_runStatements hs (by rw [← hstatements]; exact hdone)
      rw [← hstatements] at hgoes
      dsimp only
      rw [if_neg hgoes]

theorem runScript_last {s : σ} (hs : ¬sql.stopped s) (text : Bytes) (base line : Nat) :
    let rest := (statementRanges text).2
    let run := sql.runRanges text base (statementRanges text).1 s line 0
    sql.runScript s text base line =
      match run.stoppedAt with
      | some done => (run.state, done)
      | none =>
          match rest.first with
          | none => (run.state, base + text.length)
          | some first =>
              (sql.statement run.state (trimSpace (text.drop rest.start))
                  (run.line + newlines (slice text run.counted first)) (base + text.length),
                base + text.length) := by
  intro rest run
  obtain ⟨hstatements, hline, hcounted⟩ := sql.runRanges_eq text base line s
  change (run.state, run.stoppedAt) = _ at hstatements
  change run.line = line + newlines (text.take run.counted) at hline
  unfold runScript scriptStatements
  rw [if_neg hs, runStatements_append, ← hstatements]
  cases hdone : run.stoppedAt with
  | some done => rfl
  | none =>
      unfold RestRange.statement?
      cases hfirst : rest.first with
      | none => rfl
      | some first =>
          have hle : run.counted ≤ first :=
            Nat.le_trans hcounted (statementRanges_start_le_first hfirst)
          have hfirstLine : run.line + newlines (slice text run.counted first) =
              line + newlines (text.take first) := by
            rw [hline, Nat.add_assoc, newlines_slice text hle]
          dsimp only [Option.map_some, Option.toList_some, runStatements]
          rw [hfirstLine]
          split <;> rfl

/-- The chunks make no difference. -/
theorem importLoop_eq (s : σ) (pending : Bytes) (base line : Nat) (input : ImportInput) :
    sql.importLoop s pending base line input =
      sql.runScript s (pending ++ input.rest) base line := by
  induction s, pending, base, line, input using importLoop.induct sql with
  | case1 s pending base line input hstopped =>
      rw [importLoop, runScript, if_pos hstopped, if_pos hstopped]
  | case2 s pending base line input hs text run done hdone =>
      rw [← input.takeChunk_rest, ← List.append_assoc, sql.runScript_append hs, importLoop,
        if_neg hs]
      change (match run.stoppedAt with | some done => (run.state, done) | none => _) =
        match run.stoppedAt with | some done => (run.state, done) | none => _
      rw [hdone]
  | case3 s pending base line input hs text rest run hdone hchunk hfirst =>
      have hlast : pending ++ input.rest = text := by
        rw [ImportInput.rest_of_takeChunk hchunk, ← hchunk]
      rw [hlast, sql.runScript_last hs, importLoop, if_neg hs]
      change (match run.stoppedAt with | some done => (run.state, done) | none => _) =
        match run.stoppedAt with | some done => (run.state, done) | none => _
      rw [hdone]
      dsimp only
      rw [if_pos hchunk]
  | case4 s pending base line input hs text rest run hdone hchunk first hfirst =>
      have hlast : pending ++ input.rest = text := by
        rw [ImportInput.rest_of_takeChunk hchunk, ← hchunk]
      rw [hlast, sql.runScript_last hs, importLoop, if_neg hs]
      change (match run.stoppedAt with | some done => (run.state, done) | none => _) =
        match run.stoppedAt with | some done => (run.state, done) | none => _
      rw [hdone]
      dsimp only
      rw [if_pos hchunk]
  | case5 s pending base line input hs text rest run hdone hchunk ih =>
      rw [← input.takeChunk_rest, ← List.append_assoc, sql.runScript_append hs, importLoop,
        if_neg hs]
      change (match run.stoppedAt with | some done => (run.state, done) | none => _) =
        match run.stoppedAt with | some done => (run.state, done) | none => _
      rw [hdone]
      dsimp only
      rw [if_neg hchunk]
      exact ih

end SqlImport

end Vsql.Cli
