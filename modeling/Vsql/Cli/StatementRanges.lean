import Mathlib.Data.List.Basic
import Vsql.Cli.ImportInput

/-!
# The statements of a script

The statements are found by their semicolons, outside of strings, delimited identifiers and
comments.  What comes after a semicolon does not depend on anything before it, so a script
can be scanned again from any of them.
-/

namespace Vsql.Cli

open Foundation

/-- Where a statement is in a script: from the byte after the semicolon before it up to its own
semicolon, and where the first thing in it is. -/
structure StatementRange where
  start : Nat
  stop : Nat
  first : Nat
  deriving DecidableEq

inductive ScanMode where
  | text
  | quote (c : UInt8)
  | comment (depth : Nat)
  /-- Up to the end of the line. -/
  | line
  deriving DecidableEq

structure ScanState where
  ranges : List StatementRange
  start : Nat
  first : Option Nat
  mode : ScanMode
  deriving DecidableEq

/-- Nothing of the statement that starts here has been seen. -/
def ScanState.fresh (ranges : List StatementRange) (start : Nat) : ScanState :=
  ⟨ranges, start, none, .text⟩

def isSpace (c : UInt8) : Bool := c = 32 || (8 < c && c < 14) || c = 0x85 || c = 0xa0

/-- The state after a byte that is followed by `next`, and whether `next` is used with it. -/
def scanByte (c next : UInt8) (i : Nat) (s : ScanState) : ScanState × Bool :=
  match s.mode with
  | .quote q => (if c = q then { s with mode := .text } else s, false)
  | .comment depth =>
      if c = byte '/' ∧ next = byte '*' then ({ s with mode := .comment (depth + 1) }, true)
      else if c = byte '*' ∧ next = byte '/' then
        ({ s with mode := if depth ≤ 1 then .text else .comment (depth - 1) }, true)
      else (s, false)
  | .line => (if c = byte '\n' then { s with mode := .text } else s, false)
  | .text =>
      if c = byte '-' ∧ next = byte '-' then ({ s with mode := .line }, false)
      else if c = byte '/' ∧ next = byte '*' then ({ s with mode := .comment 1 }, true)
      else if c = byte ';' then
        (.fresh (s.ranges ++ (s.first.map fun first => ⟨s.start, i, first⟩).toList) (i + 1), false)
      else if isSpace c then (s, false)
      else
        ({ s with
          first := s.first.or (some i)
          mode := if c = byte '\'' ∨ c = byte '"' then .quote c else .text }, false)

/-- At the end of the script the next byte is zero. -/
def scanFrom : Bytes → Nat → ScanState → ScanState
  | [], _, s => s
  | [c], i, s => (scanByte c 0 i s).1
  | c :: next :: rest, i, s =>
      if (scanByte c next i s).2 then scanFrom rest (i + 2) (scanByte c next i s).1
      else scanFrom (next :: rest) (i + 1) (scanByte c next i s).1

/-- The text after the last semicolon, and the first thing in it. -/
structure RestRange where
  start : Nat
  first : Option Nat
  deriving DecidableEq

/-- A comment that is not closed is not finished, even if there is nothing else. -/
def ScanState.rest (s : ScanState) : RestRange :=
  match s.mode with
  | .comment _ => ⟨s.start, s.first.or (some s.start)⟩
  | _ => ⟨s.start, s.first⟩

def statementRanges (script : Bytes) : List StatementRange × RestRange :=
  let s := scanFrom script 0 (.fresh [] 0)
  (s.ranges, s.rest)

/-! ## One byte -/

/-- A semicolon that ends a statement. -/
def Ends (c : UInt8) (s : ScanState) : Prop := s.mode = .text ∧ c = byte ';'

instance (c : UInt8) (s : ScanState) : Decidable (Ends c s) := inferInstanceAs (Decidable (_ ∧ _))

theorem scanByte_ends {c : UInt8} {s : ScanState} (h : Ends c s) (next : UInt8) (i : Nat) :
    scanByte c next i s =
      (.fresh (s.ranges ++ (s.first.map fun first => ⟨s.start, i, first⟩).toList) (i + 1),
        false) := by
  obtain ⟨hmode, rfl⟩ := h
  unfold scanByte
  rw [hmode]
  rfl

theorem scanByte_not_ends {c : UInt8} {s : ScanState} (h : ¬Ends c s) (next : UInt8) (i : Nat) :
    (scanByte c next i s).1.ranges = s.ranges ∧ (scanByte c next i s).1.start = s.start := by
  unfold scanByte
  cases hmode : s.mode with
  | text =>
      have hc : c ≠ byte ';' := fun hc => h ⟨hmode, hc⟩
      simp only [hc, if_false]
      split_ifs <;> exact ⟨rfl, rfl⟩
  | quote q =>
      dsimp only
      split_ifs <;> exact ⟨rfl, rfl⟩
  | comment depth =>
      dsimp only
      split_ifs <;> exact ⟨rfl, rfl⟩
  | line =>
      dsimp only
      split_ifs <;> exact ⟨rfl, rfl⟩

/-! ## Scanning again from a semicolon -/

/-- The scan of the longer text comes by the start of the last statement of the shorter one. -/
theorem scanFrom_append (a b : Bytes) (i : Nat) (s : ScanState) :
    ((scanFrom a i s).ranges = s.ranges ∧ (scanFrom a i s).start = s.start) ∨
      ∃ j ≤ a.length, (scanFrom a i s).start = i + j ∧
        scanFrom (a ++ b) i s = scanFrom (a.drop j ++ b) (i + j)
          (.fresh (scanFrom a i s).ranges (i + j)) := by
  induction a, i, s using scanFrom.induct with
  | case1 i s => exact .inl ⟨rfl, rfl⟩
  | case2 c i s =>
      by_cases hends : Ends c s
      · refine .inr ⟨1, Nat.le_refl 1, ?_, ?_⟩
        · rw [scanFrom, scanByte_ends hends]
          rfl
        · rw [scanFrom, scanByte_ends hends]
          cases b with
          | nil =>
              rw [List.append_nil, scanFrom, scanByte_ends hends]
              rfl
          | cons next b =>
              change scanFrom (c :: next :: b) i s = _
              rw [scanFrom, scanByte_ends hends]
              rfl
      · exact .inl (scanByte_not_ends hends 0 i)
  | case3 c next rest i s htwo ih =>
      have hends : ¬Ends c s := fun hends => by
        rw [scanByte_ends hends] at htwo
        cases htwo
      obtain ⟨hranges, hstart⟩ := scanByte_not_ends hends next i
      rw [scanFrom, if_pos htwo]
      rcases ih with ⟨hr, hs⟩ | ⟨j, hj, hs, hscan⟩
      · exact .inl ⟨hr.trans hranges, hs.trans hstart⟩
      · refine .inr ⟨j + 2, ?_, by omega, ?_⟩
        · rw [List.length_cons, List.length_cons]
          omega
        · have hindex : i + (j + 2) = i + 2 + j := by omega
          change scanFrom (c :: next :: (rest ++ b)) i s = _
          rw [scanFrom, if_pos htwo, hscan, hindex]
          rfl
  | case4 c next rest i s htwo ih =>
      rw [scanFrom, if_neg htwo]
      have happend : scanFrom (c :: next :: rest ++ b) i s =
          scanFrom (next :: rest ++ b) (i + 1) (scanByte c next i s).1 := by
        change scanFrom (c :: next :: (rest ++ b)) i s = _
        rw [scanFrom, if_neg htwo]
        rfl
      rcases ih with ⟨hr, hs⟩ | ⟨j, hj, hs, hscan⟩
      · by_cases hends : Ends c s
        · refine .inr ⟨1, by simp, ?_, ?_⟩
          · rw [hs, scanByte_ends hends]
            rfl
          · rw [happend, hr, scanByte_ends hends]
            rfl
        · obtain ⟨hranges, hstart⟩ := scanByte_not_ends hends next i
          exact .inl ⟨hr.trans hranges, hs.trans hstart⟩
      · refine .inr ⟨j + 1, ?_, by omega, ?_⟩
        · rw [List.length_cons]
          omega
        · have hindex : i + (j + 1) = i + 1 + j := by omega
          rw [happend, hscan, hindex]
          rfl

/-! ## Moving a scan -/

def StatementRange.shift (k : Nat) (r : StatementRange) : StatementRange :=
  ⟨r.start + k, r.stop + k, r.first + k⟩

/-- The state `k` bytes later, after other statements. -/
def ScanState.after (ranges : List StatementRange) (k : Nat) (s : ScanState) : ScanState :=
  ⟨ranges ++ s.ranges.map (.shift k), s.start + k, s.first.map (· + k), s.mode⟩

theorem scanByte_after (ranges : List StatementRange) (k : Nat) (c next : UInt8) (i : Nat)
    (s : ScanState) :
    scanByte c next (i + k) (s.after ranges k) =
      ((scanByte c next i s).1.after ranges k, (scanByte c next i s).2) := by
  obtain ⟨old, start, first, mode⟩ := s
  cases mode with
  | text =>
      by_cases hc : c = byte ';'
      · rw [scanByte_ends ⟨rfl, hc⟩, scanByte_ends ⟨rfl, hc⟩]
        cases first <;> simp [ScanState.after, ScanState.fresh, StatementRange.shift] <;> omega
      · unfold scanByte ScanState.after
        simp only [hc, if_false]
        split_ifs
        · rfl
        · rfl
        · rfl
        · cases first <;> rfl
        · cases first <;> rfl
  | quote q =>
      unfold scanByte ScanState.after
      dsimp only
      split <;> rfl
  | comment depth =>
      unfold scanByte ScanState.after
      dsimp only
      split_ifs <;> rfl
  | line =>
      unfold scanByte ScanState.after
      dsimp only
      split <;> rfl

theorem scanFrom_after (ranges : List StatementRange) (k : Nat) (l : Bytes) (i : Nat)
    (s : ScanState) :
    scanFrom l (i + k) (s.after ranges k) = (scanFrom l i s).after ranges k := by
  induction l, i, s using scanFrom.induct with
  | case1 i s => rfl
  | case2 c i s => rw [scanFrom, scanFrom, scanByte_after]
  | case3 c next rest i s htwo ih =>
      have hindex : i + k + 2 = i + 2 + k := by omega
      rw [scanFrom, scanByte_after, if_pos htwo, scanFrom, if_pos htwo, hindex, ih]
  | case4 c next rest i s htwo ih =>
      have hindex : i + k + 1 = i + 1 + k := by omega
      rw [scanFrom, scanByte_after, if_neg htwo, scanFrom, if_neg htwo, hindex, ih]

/-! ## Where the ranges are -/

/-- The ranges come one after the other, before the start of the statement that is being
scanned. -/
structure Placed (i : Nat) (s : ScanState) : Prop where
  start : s.start ≤ i
  first : ∀ first, s.first = some first → s.start ≤ first ∧ first < i
  ranges : ∀ r ∈ s.ranges, r.first < s.start ∧ r.stop < s.start
  sorted : s.ranges.Pairwise fun r r' => r.first ≤ r'.first

theorem Placed.mono {i j : Nat} {s : ScanState} (h : Placed i s) (hij : i ≤ j) : Placed j s where
  start := Nat.le_trans h.start hij
  first first hfirst := ⟨(h.first first hfirst).1, Nat.lt_of_lt_of_le (h.first first hfirst).2 hij⟩
  ranges := h.ranges
  sorted := h.sorted

theorem placed_fresh (i : Nat) : Placed i (.fresh [] 0) where
  start := Nat.zero_le i
  first first hfirst := by cases hfirst
  ranges r hr := by cases hr
  sorted := .nil

theorem scanByte_first {c : UInt8} {s : ScanState} (next : UInt8) (i : Nat) (h : ¬Ends c s) :
    (scanByte c next i s).1.first = s.first ∨ (scanByte c next i s).1.first = some i := by
  unfold scanByte
  cases hmode : s.mode with
  | text =>
      have hc : c ≠ byte ';' := fun hc => h ⟨hmode, hc⟩
      simp only [hc, if_false]
      split_ifs
      · exact .inl rfl
      · exact .inl rfl
      · exact .inl rfl
      all_goals
        cases hfirst : s.first with
        | none => exact .inr rfl
        | some first => exact .inl rfl
  | quote q =>
      dsimp only
      split_ifs <;> exact .inl rfl
  | comment depth =>
      dsimp only
      split_ifs <;> exact .inl rfl
  | line =>
      dsimp only
      split_ifs <;> exact .inl rfl

theorem Placed.fresh {i : Nat} {s : ScanState} (h : Placed i s) :
    Placed (i + 1) (.fresh (s.ranges ++ (s.first.map fun first => ⟨s.start, i, first⟩).toList)
      (i + 1)) := by
  have hstart := h.start
  have hold : ∀ r ∈ s.ranges, r.first < s.start ∧ r.stop < s.start := h.ranges
  constructor
  · exact Nat.le_refl _
  · intro first hfirst
    cases hfirst
  · intro r hr
    rw [ScanState.fresh, List.mem_append] at hr
    change r.first < i + 1 ∧ r.stop < i + 1
    rcases hr with hr | hr
    · have hr := hold r hr
      omega
    · rw [Option.mem_toList, Option.map_eq_some_iff] at hr
      rcases hr with ⟨first, hfirst, rfl⟩
      have hfirst := h.first first hfirst
      dsimp only
      omega
  · rw [ScanState.fresh, List.pairwise_append]
    refine ⟨h.sorted, ?_, ?_⟩
    · cases s.first with
      | none => exact .nil
      | some first => exact List.pairwise_singleton _ _
    · intro r hr r' hr'
      rw [Option.mem_toList, Option.map_eq_some_iff] at hr'
      rcases hr' with ⟨first, hfirst, rfl⟩
      have hfirst := h.first first hfirst
      have hr := hold r hr
      dsimp only
      omega

theorem Placed.scanByte {i : Nat} {s : ScanState} (h : Placed i s) (c next : UInt8) :
    Placed (i + 1) (scanByte c next i s).1 := by
  by_cases hends : Ends c s
  · rw [scanByte_ends hends]
    exact h.fresh
  · have hkept := scanByte_not_ends hends next i
    have hstart := h.start
    constructor
    · rw [hkept.2]
      omega
    · intro first hfirst
      rw [hkept.2]
      rcases scanByte_first next i hends with hf | hf
      · have hplaced := h.first first (hf.symm.trans hfirst)
        omega
      · cases hf.symm.trans hfirst
        omega
    · rw [hkept.1, hkept.2]
      exact h.ranges
    · rw [hkept.1]
      exact h.sorted

theorem placed_scanFrom {l : Bytes} {i : Nat} {s : ScanState} (h : Placed i s) :
    Placed (i + l.length) (scanFrom l i s) := by
  induction l, i, s using scanFrom.induct with
  | case1 i s => exact h
  | case2 c i s => exact h.scanByte c 0
  | case3 c next rest i s htwo ih =>
      rw [scanFrom, if_pos htwo]
      refine (ih ((h.scanByte c next).mono (Nat.le_succ _))).mono ?_
      rw [List.length_cons, List.length_cons]
      omega
  | case4 c next rest i s htwo ih =>
      rw [scanFrom, if_neg htwo]
      refine (ih (h.scanByte c next)).mono ?_
      simp only [List.length_cons]
      omega

/-! ## The statements of two texts, one after the other -/

def RestRange.shift (k : Nat) (r : RestRange) : RestRange := ⟨r.start + k, r.first.map (· + k)⟩

theorem ScanState.rest_after (ranges : List StatementRange) (k : Nat) (s : ScanState) :
    (s.after ranges k).rest = s.rest.shift k := by
  obtain ⟨old, start, first, mode⟩ := s
  unfold ScanState.rest ScanState.after RestRange.shift
  cases mode with
  | comment depth => cases first <;> rfl
  | text => rfl
  | quote q => rfl
  | line => rfl

theorem ScanState.start_rest (s : ScanState) : s.rest.start = s.start := by
  unfold ScanState.rest
  split <;> rfl

theorem ScanState.after_zero (s : ScanState) : s.after [] 0 = s := by
  obtain ⟨ranges, start, first, mode⟩ := s
  have hshift : StatementRange.shift 0 = id := rfl
  cases first <;> simp [ScanState.after, hshift]

/-- The scan starts again from the last semicolon of the first text. -/
theorem statementRanges_append (a b : Bytes) :
    statementRanges (a ++ b) =
      ((statementRanges a).1 ++
          (statementRanges (a.drop (statementRanges a).2.start ++ b)).1.map
            (.shift (statementRanges a).2.start),
        (statementRanges (a.drop (statementRanges a).2.start ++ b)).2.shift
          (statementRanges a).2.start) := by
  have hscan : scanFrom (a ++ b) 0 (.fresh [] 0) =
      (scanFrom (a.drop (scanFrom a 0 (.fresh [] 0)).start ++ b) 0 (.fresh [] 0)).after
        (scanFrom a 0 (.fresh [] 0)).ranges (scanFrom a 0 (.fresh [] 0)).start := by
    rcases scanFrom_append a b 0 (.fresh [] 0) with ⟨hranges, hstart⟩ | ⟨j, _, hstart, hscan⟩
    · rw [hranges, hstart]
      exact (ScanState.after_zero _).symm
    · rw [hscan, hstart, ← scanFrom_after, Nat.zero_add]
      simp [ScanState.after, ScanState.fresh]
  unfold statementRanges
  dsimp only
  rw [hscan, ScanState.rest_after, ScanState.start_rest]
  rfl

theorem statementRanges_start_le (a : Bytes) : (statementRanges a).2.start ≤ a.length := by
  have hplaced : Placed (0 + a.length) _ := placed_scanFrom (placed_fresh 0)
  unfold statementRanges
  dsimp only
  rw [ScanState.start_rest]
  have hstart := hplaced.start
  omega

theorem statementRanges_lt {a : Bytes} {r : StatementRange} (h : r ∈ (statementRanges a).1) :
    r.first < (statementRanges a).2.start ∧ r.stop < (statementRanges a).2.start := by
  have hplaced : Placed (0 + a.length) _ := placed_scanFrom (placed_fresh 0)
  unfold statementRanges
  dsimp only
  rw [ScanState.start_rest]
  exact hplaced.ranges r h

theorem statementRanges_sorted (a : Bytes) :
    (statementRanges a).1.Pairwise fun r r' => r.first ≤ r'.first :=
  (placed_scanFrom (placed_fresh 0) : Placed (0 + a.length) _).sorted

theorem statementRanges_start_le_first {a : Bytes} {first : Nat}
    (h : (statementRanges a).2.first = some first) : (statementRanges a).2.start ≤ first := by
  have hplaced : Placed (0 + a.length) _ := placed_scanFrom (placed_fresh 0)
  unfold statementRanges ScanState.rest at h ⊢
  dsimp only at h ⊢
  split at h
  · cases hfirst : (scanFrom a 0 (.fresh [] 0)).first with
    | none =>
        rw [hfirst] at h
        cases h
        exact Nat.le_refl _
    | some first' =>
        rw [hfirst] at h
        cases h
        exact (hplaced.first _ hfirst).1
  · exact (hplaced.first _ h).1

end Vsql.Cli
