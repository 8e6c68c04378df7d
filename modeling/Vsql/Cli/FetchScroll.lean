import Mathlib.Algebra.BigOperators.Group.List.Basic
import Mathlib.Algebra.Order.Ring.Int
import Vsql.Foundation.Runs

/-!
# FetchScroll

A cursor is on a rowset, before the first row or after the last one.  `Rowset.row` is the row that
a call goes to, in integers that do not wrap around; where the code goes is compared with it.
-/

namespace Vsql.Cli

open Foundation

/-! ## The calls -/

inductive FetchOrientation where
  | next
  | first
  | last
  | prior
  | absolute
  | relative
  deriving DecidableEq

/-- The position of a cursor.  It starts at -1 before the first row, and at the number of rows
after the last one. -/
structure Rowset where
  start : Int32
  len : Int32
  deriving DecidableEq

def Rowset.beforeFirst : Rowset := ⟨-1, 0⟩

/-- What `scroll` returns. -/
structure Scrolled where
  start : Int32
  len : Int32
  isNoData : Bool
  deriving DecidableEq

def scrolledTo (n arraySize s : Int32) : Scrolled :=
  ⟨s, if s + arraySize > n then n - s else arraySize, false⟩

/-- A `k` that is before the first row, but not by more than the array size, is the first rowset. -/
def scrollTo (n arraySize : Int32) (k : Int64) : Scrolled :=
  if k > n.toInt64 then ⟨n, 0, true⟩
  else if k ≥ 1 then scrolledTo n arraySize (k - 1).toInt32
  else if k < 0 ∧ -k ≤ arraySize.toInt64 ∧ n > 0 then
    ⟨0, if arraySize > n then n else arraySize, false⟩
  else ⟨-1, 0, true⟩

def scroll (n arraySize start len : Int32) (orientation : FetchOrientation) (offset : Int64) :
    Scrolled :=
  let rowset := scrolledTo n arraySize
  let before : Int32 := -1
  let after := n
  match orientation with
  | .first => if n = 0 then ⟨before, 0, true⟩ else rowset 0
  | .last =>
      if n = 0 then ⟨after, 0, true⟩
      else rowset (if n > arraySize then n - arraySize else 0)
  | .prior =>
      if n = 0 ∨ start ≤ 0 then ⟨before, 0, true⟩
      else if start = after then rowset (if n > arraySize then n - arraySize else 0)
      else rowset (if start > arraySize then start - arraySize else 0)
  | .absolute =>
      let k := if offset > 0 then offset else if offset < 0 then n.toInt64 + offset + 1 else 1
      scrollTo n arraySize k
  | .relative =>
      if offset = 0 then ⟨start, len, len = 0⟩
      else if offset > 0 then
        if n = 0 ∨ start + len ≥ n then ⟨after, 0, true⟩
        else
          let k := if start = before then offset else (start + 1).toInt64 + offset
          scrollTo n arraySize k
      else
        let rowsBefore := if start = after then n else if start < 0 then 0 else start
        scrollTo n arraySize (rowsBefore.toInt64 + offset + 1)
  | .next =>
      if n = 0 ∨ start + len ≥ n then ⟨after, 0, true⟩
      else rowset (if start = before then 0 else start + len)

structure ScrollCall where
  arraySize : Int32
  orientation : FetchOrientation
  offset : Int64
  deriving DecidableEq

/-- `fetch`, of the position of the cursor.  It is unchanged by a RELATIVE 0 that has no rowset. -/
def Rowset.fetch (n : Int32) (r : Rowset) (c : ScrollCall) : Scrolled × Rowset :=
  let s := scroll n c.arraySize r.start r.len c.orientation c.offset
  if s.isNoData then
    (s, if c.orientation = .relative ∧ c.offset = 0 then r else ⟨s.start, 0⟩)
  else (s, ⟨s.start, s.len⟩)

def cursor (n : Int32) : Machine Rowset ScrollCall Scrolled := ⟨Rowset.fetch n⟩

/-! ## Positions -/

/-- A rowset within the rows, or none. -/
def Scrolled.Within (n arraySize : Int32) (s : Scrolled) : Prop :=
  if s.isNoData then s.len = 0 ∧ (s.start = -1 ∨ s.start = n)
  else 0 ≤ s.start.toInt ∧ 1 ≤ s.len.toInt ∧ s.len.toInt ≤ arraySize.toInt ∧
    s.start.toInt + s.len.toInt ≤ n.toInt

instance (n arraySize : Int32) (s : Scrolled) : Decidable (s.Within n arraySize) := by
  unfold Scrolled.Within
  infer_instance

def Scrolled.StartsAt (s : Scrolled) (row : Int) : Prop :=
  s.isNoData = false ∧ s.start.toInt = row

instance (s : Scrolled) (row : Int) : Decidable (s.StartsAt row) :=
  inferInstanceAs (Decidable (_ ∧ _))

/-- What a call has to return from the position `r`. -/
structure Rowset.Answers (n : Int32) (r : Rowset) (c : ScrollCall) (s : Scrolled) : Prop where
  within : s.Within n c.arraySize
  absolute : c.orientation = .absolute → 1 ≤ c.offset.toInt → c.offset.toInt ≤ n.toInt →
    s.StartsAt (c.offset.toInt - 1)
  fromEnd : c.orientation = .absolute → 1 ≤ -c.offset.toInt → -c.offset.toInt ≤ n.toInt →
    s.StartsAt (n.toInt + c.offset.toInt)
  relative : c.orientation = .relative → r.len ≠ 0 → 0 ≤ r.start.toInt + c.offset.toInt →
    r.start.toInt + c.offset.toInt < n.toInt → s.StartsAt (r.start.toInt + c.offset.toInt)

/-- Where the next rowset starts. -/
def Rowset.nextRow (r : Rowset) : Int :=
  if r.start = -1 then 0 else r.start.toInt + r.len.toInt

/-- The row that the call goes to, from 0.  There is no row -1. -/
def Rowset.row (n : Int32) (r : Rowset) (c : ScrollCall) : Int :=
  match c.orientation with
  | .first => 0
  | .last => max 0 (n.toInt - c.arraySize.toInt)
  | .prior => if r.start.toInt ≤ 0 then -1 else max 0 (r.start.toInt - c.arraySize.toInt)
  | .absolute =>
      if 0 < c.offset.toInt then c.offset.toInt - 1
      else if c.offset.toInt < 0 then n.toInt + c.offset.toInt else 0
  | .relative =>
      if r.start = -1 ∧ 0 < c.offset.toInt then c.offset.toInt - 1
      else r.start.toInt + c.offset.toInt
  | .next => r.nextRow

/-- A RELATIVE 0 keeps the rowset, so that it must not be longer than the array size.  Any other
call to a row does not count past the largest `int`, and a RELATIVE from the rowset with the last
row goes past the last row. -/
def Rowset.Fits (n : Int32) (r : Rowset) (c : ScrollCall) : Prop :=
  if c.orientation = .relative ∧ c.offset = 0 then r.len.toInt ≤ c.arraySize.toInt
  else
    (0 ≤ r.row n c → r.row n c < n.toInt → r.row n c + c.arraySize.toInt < 2 ^ 31) ∧
      (c.orientation = .relative → 0 < c.offset.toInt → r.len ≠ 0 →
        r.start.toInt + r.len.toInt = n.toInt → n.toInt ≤ r.row n c)

/-- Before the first row, after the last one or on a rowset. -/
def Rowset.At (n : Int32) (r : Rowset) : Prop :=
  r.len = 0 ∧ (r.start = -1 ∨ r.start = n) ∨
    0 ≤ r.start.toInt ∧ 1 ≤ r.len.toInt ∧ r.start.toInt + r.len.toInt ≤ n.toInt

/-! ## Sums -/

theorem toInt_add {a b : Int32} (hlow : -2 ^ 31 ≤ a.toInt + b.toInt)
    (hhigh : a.toInt + b.toInt < 2 ^ 31) : (a + b).toInt = a.toInt + b.toInt := by
  rw [Int32.toInt_add, Int.bmod_eq_of_le] <;> omega

theorem toInt_sub {a b : Int32} (hlow : -2 ^ 31 ≤ a.toInt - b.toInt)
    (hhigh : a.toInt - b.toInt < 2 ^ 31) : (a - b).toInt = a.toInt - b.toInt := by
  rw [Int32.toInt_sub, Int.bmod_eq_of_le] <;> omega

/-- The sum of two numbers that are not negative is negative if it wraps around. -/
theorem toInt_add_of_large {a b : Int32} (h : 2 ^ 31 ≤ a.toInt + b.toInt) :
    (a + b).toInt = a.toInt + b.toInt - 2 ^ 32 := by
  have ha := a.toInt_lt
  have hb := b.toInt_lt
  rw [Int32.toInt_add, Int.bmod_def]
  split <;> omega

theorem toInt_add64 {a b : Int64} (hlow : -2 ^ 63 ≤ a.toInt + b.toInt)
    (hhigh : a.toInt + b.toInt < 2 ^ 63) : (a + b).toInt = a.toInt + b.toInt := by
  rw [Int64.toInt_add, Int.bmod_eq_of_le] <;> omega

theorem toInt_add64_of_large {a b : Int64} (h : 2 ^ 63 ≤ a.toInt + b.toInt) :
    (a + b).toInt = a.toInt + b.toInt - 2 ^ 64 := by
  have ha := a.toInt_lt
  have hb := b.toInt_lt
  rw [Int64.toInt_add, Int.bmod_def]
  split <;> omega

/-! ## Rowsets -/

variable {n a s : Int32} {k : Int64}

@[simp] theorem scrolledTo_startsAt {row : Int} :
    (scrolledTo n a s).StartsAt row ↔ s.toInt = row := by
  simp [Scrolled.StartsAt, scrolledTo]

/-- The rowset is within the rows as long as the first row and the array size fit into an `int`. -/
theorem scrolledTo_within (ha : 1 ≤ a.toInt) (hs : 0 ≤ s.toInt) (hn : s.toInt < n.toInt) :
    (scrolledTo n a s).Within n a ↔ s.toInt + a.toInt < 2 ^ 31 := by
  have hmax := n.toInt_lt
  have hmax' := a.toInt_lt
  simp only [Scrolled.Within, scrolledTo, Bool.false_eq_true, if_false, gt_iff_lt,
    Int32.lt_iff_toInt_lt]
  by_cases hfits : s.toInt + a.toInt < 2 ^ 31
  · rw [toInt_add (by omega) hfits]
    split
    · rw [toInt_sub (by omega) (by omega)]
      omega
    · omega
  · rw [toInt_add_of_large (by omega), if_neg (by omega)]
    omega

theorem within_none (h : s = -1 ∨ s = n) : (⟨s, 0, true⟩ : Scrolled).Within n a := by
  simpa [Scrolled.Within] using h

/-- The first rowset. -/
theorem within_first (ha : 1 ≤ a.toInt) (hn : 0 < n.toInt) :
    (⟨0, if a > n then n else a, false⟩ : Scrolled).Within n a := by
  have hzero : (0 : Int32).toInt = 0 := rfl
  simp only [Scrolled.Within, Bool.false_eq_true, if_false, gt_iff_lt, Int32.lt_iff_toInt_lt, hzero]
  split <;> omega

theorem scrollTo_of_row (hlow : 1 ≤ k.toInt) (hhigh : k.toInt ≤ n.toInt) :
    ∃ s, scrollTo n a k = scrolledTo n a s ∧ s.toInt = k.toInt - 1 := by
  have hmax := n.toInt_lt
  have hone : (1 : Int64).toInt = 1 := rfl
  refine ⟨(k - 1).toInt32, ?_, ?_⟩
  · have hle : ¬k > n.toInt64 := by
      rw [gt_iff_lt, Int64.lt_iff_toInt_lt, Int32.toInt_toInt64]
      omega
    have hge : k ≥ 1 := by
      rw [ge_iff_le, Int64.le_iff_toInt_le, hone]
      exact hlow
    rw [scrollTo, if_neg hle, if_pos hge]
  · rw [Int64.toInt_toInt32, Int64.toInt_sub, hone]
    rw [Int.bmod_eq_of_le (m := 2 ^ 64) (by omega) (by omega), Int.bmod_eq_of_le] <;> omega

/-- A row that does not exist gives no rowset or the first one. -/
theorem scrollTo_of_none (ha : 1 ≤ a.toInt) (hk : k.toInt < 1 ∨ n.toInt < k.toInt) :
    (scrollTo n a k).Within n a := by
  have hone : (1 : Int64).toInt = 1 := rfl
  unfold scrollTo
  split
  · exact within_none (.inr rfl)
  · rename_i hle
    rw [gt_iff_lt, Int64.lt_iff_toInt_lt, Int32.toInt_toInt64] at hle
    have hge : ¬k ≥ 1 := by
      rw [ge_iff_le, Int64.le_iff_toInt_le, hone]
      omega
    rw [if_neg hge]
    split
    · rename_i hfirst
      exact within_first ha (Int32.lt_iff_toInt_lt.1 hfirst.2.2)
    · exact within_none (.inl rfl)

/-! ## Where a call goes -/

variable {r : Rowset} {c : ScrollCall}

/-- A RELATIVE that goes forward from the rowset with the last row. -/
def Rowset.Leaves (n : Int32) (r : Rowset) (c : ScrollCall) : Prop :=
  c.orientation = .relative ∧ 0 < c.offset.toInt ∧ r.len ≠ 0 ∧
    r.start.toInt + r.len.toInt = n.toInt

/-- The call goes to its row, or to a position without a row if that does not exist. -/
inductive Rowset.Goes (n : Int32) (r : Rowset) (c : ScrollCall) : Scrolled → Prop where
  | row {s : Int32} (hrow : s.toInt = r.row n c) (hlow : 0 ≤ r.row n c)
      (hhigh : r.row n c < n.toInt) (hleaves : ¬r.Leaves n c) :
      r.Goes n c (scrolledTo n c.arraySize s)
  | none {s : Scrolled} (hwithin : s.Within n c.arraySize)
      (hrow : r.row n c < 0 ∨ n.toInt ≤ r.row n c ∨ r.Leaves n c ∧ s.isNoData = true) :
      r.Goes n c s

theorem toInt_zero : (0 : Int32).toInt = 0 := rfl

theorem toInt_one : (1 : Int32).toInt = 1 := rfl

theorem toInt_neg_one : (-1 : Int32).toInt = -1 := rfl

/-- The row that is an array before `s`. -/
theorem toInt_arrayBefore (ha : 1 ≤ a.toInt) :
    (if s > a then s - a else 0).toInt = max 0 (s.toInt - a.toInt) := by
  have hmax := s.toInt_lt
  simp only [gt_iff_lt, Int32.lt_iff_toInt_lt]
  split
  · rw [toInt_sub (by omega) (by omega)]
    omega
  · rw [toInt_zero]
    omega

variable {offset : Int64}

theorem goes_first (hn : 0 ≤ n.toInt) :
    r.Goes n ⟨a, .first, offset⟩ (scroll n a r.start r.len .first offset) := by
  unfold scroll
  simp only [← Int32.toInt_inj, toInt_zero]
  split
  · rename_i hempty
    apply Rowset.Goes.none (within_none (.inl rfl))
    right
    left
    show n.toInt ≤ 0
    omega
  · apply Rowset.Goes.row
    · rfl
    · exact Int.le_refl 0
    · show 0 < n.toInt
      omega
    · simp [Rowset.Leaves]

theorem goes_last (hn : 0 ≤ n.toInt) (ha : 1 ≤ a.toInt) :
    r.Goes n ⟨a, .last, offset⟩ (scroll n a r.start r.len .last offset) := by
  unfold scroll
  simp only [← Int32.toInt_inj, toInt_zero]
  split
  · rename_i hempty
    apply Rowset.Goes.none (within_none (.inr rfl))
    right
    left
    show n.toInt ≤ max 0 (n.toInt - a.toInt)
    omega
  · apply Rowset.Goes.row
    · exact toInt_arrayBefore ha
    · exact Int.le_max_left 0 (n.toInt - a.toInt)
    · show max 0 (n.toInt - a.toInt) < n.toInt
      omega
    · simp [Rowset.Leaves]

theorem Rowset.At.toInt (h : r.At n) :
    r.len.toInt = 0 ∧ (r.start.toInt = -1 ∨ r.start.toInt = n.toInt) ∨
      0 ≤ r.start.toInt ∧ 1 ≤ r.len.toInt ∧ r.start.toInt + r.len.toInt ≤ n.toInt := by
  simpa only [Rowset.At, ← Int32.toInt_inj, toInt_zero, toInt_neg_one] using h

/-- There is nothing before the first row. -/
theorem scroll_prior (offset : Int64) (ha : 1 ≤ a.toInt) (h : r.At n) :
    ∃ s, s.toInt = max 0 (r.start.toInt - a.toInt) ∧
      scroll n a r.start r.len .prior offset =
        if r.start.toInt ≤ 0 then ⟨-1, 0, true⟩ else scrolledTo n a s := by
  have hat := h.toInt
  refine ⟨if r.start > a then r.start - a else 0, toInt_arrayBefore ha, ?_⟩
  unfold scroll
  simp only [← Int32.toInt_inj, Int32.le_iff_toInt_le, toInt_zero]
  by_cases hfirst : r.start.toInt ≤ 0
  · rw [if_pos (.inr hfirst), if_pos hfirst]
  · rw [if_neg (by omega), if_neg hfirst]
    split
    · rename_i hsame
      rw [Int32.toInt_inj.1 hsame]
    · rfl

theorem goes_prior (hn : 0 ≤ n.toInt) (ha : 1 ≤ a.toInt) (h : r.At n) :
    r.Goes n ⟨a, .prior, offset⟩ (scroll n a r.start r.len .prior offset) := by
  have hat := h.toInt
  have hrow : r.row n ⟨a, .prior, offset⟩ =
      if r.start.toInt ≤ 0 then -1 else max 0 (r.start.toInt - a.toInt) := rfl
  obtain ⟨s, hs, hscroll⟩ := scroll_prior offset ha h
  rw [hscroll]
  split
  · rename_i hfirst
    rw [if_pos hfirst] at hrow
    apply Rowset.Goes.none (within_none (.inl rfl))
    left
    omega
  · rename_i hfirst
    rw [if_neg hfirst] at hrow
    apply Rowset.Goes.row
    · rw [hs, hrow]
    · omega
    · show r.row n ⟨a, .prior, offset⟩ < n.toInt
      omega
    · simp [Rowset.Leaves]

/-- The rows of `scroll_to` are counted from 1. -/
theorem goes_scrollTo (ha : 1 ≤ c.arraySize.toInt) (hleaves : ¬r.Leaves n c)
    (hrow : 1 ≤ k.toInt → k.toInt ≤ n.toInt → r.row n c = k.toInt - 1)
    (hnone : k.toInt < 1 ∨ n.toInt < k.toInt → r.row n c < 0 ∨ n.toInt ≤ r.row n c) :
    r.Goes n c (scrollTo n c.arraySize k) := by
  by_cases hk : 1 ≤ k.toInt ∧ k.toInt ≤ n.toInt
  · obtain ⟨s, hscroll, hs⟩ := scrollTo_of_row hk.1 hk.2
    have hcount := hrow hk.1 hk.2
    rw [hscroll]
    apply Rowset.Goes.row
    · omega
    · omega
    · omega
    · exact hleaves
  · have hout : k.toInt < 1 ∨ n.toInt < k.toInt := by omega
    apply Rowset.Goes.none (scrollTo_of_none ha hout)
    cases hnone hout with
    | inl hlow => exact .inl hlow
    | inr hhigh => exact .inr (.inl hhigh)

theorem goes_absolute (hn : 0 ≤ n.toInt) (ha : 1 ≤ a.toInt) :
    r.Goes n ⟨a, .absolute, offset⟩ (scroll n a r.start r.len .absolute offset) := by
  have hmax := n.toInt_lt
  have hmin := offset.le_toInt
  have hzero : (0 : Int64).toInt = 0 := rfl
  have hone : (1 : Int64).toInt = 1 := rfl
  have hk :
      (if offset > 0 then offset else if offset < 0 then n.toInt64 + offset + 1 else 1).toInt =
      r.row n ⟨a, .absolute, offset⟩ + 1 := by
    unfold Rowset.row
    simp only [gt_iff_lt, Int64.lt_iff_toInt_lt, hzero]
    split
    · omega
    · split
      · have hsum : (n.toInt64 + offset).toInt = n.toInt + offset.toInt := by
          rw [toInt_add64] <;> rw [Int32.toInt_toInt64] <;> omega
        rw [toInt_add64 (by omega) (by omega), hsum, hone]
      · rw [hone]
        omega
  apply goes_scrollTo (c := ⟨a, .absolute, offset⟩) ha
  · simp [Rowset.Leaves]
  · omega
  · omega

theorem nextRow_eq : r.nextRow =
    if r.start.toInt = -1 then 0 else r.start.toInt + r.len.toInt := by
  unfold Rowset.nextRow
  simp only [← Int32.toInt_inj, toInt_neg_one]

theorem scroll_next (a : Int32) (offset : Int64) (hn : 0 ≤ n.toInt) (h : r.At n) :
    ∃ s, s.toInt = r.nextRow ∧ scroll n a r.start r.len .next offset =
      if n.toInt ≤ r.nextRow then ⟨n, 0, true⟩ else scrolledTo n a s := by
  have hat := h.toInt
  have hmax := n.toInt_lt
  have hsum : (r.start + r.len).toInt = r.start.toInt + r.len.toInt := by
    apply toInt_add <;> omega
  refine ⟨if r.start.toInt = -1 then 0 else r.start + r.len, ?_, ?_⟩
  · rw [nextRow_eq]
    split
    · rfl
    · exact hsum
  · unfold scroll
    simp only [← Int32.toInt_inj, ge_iff_le, Int32.le_iff_toInt_le, toInt_zero, toInt_neg_one, hsum]
    rw [nextRow_eq]
    by_cases hbefore : r.start.toInt = -1
    · simp only [if_pos hbefore]
      by_cases hempty : n.toInt ≤ 0
      · rw [if_pos (by omega), if_pos hempty]
      · rw [if_neg (by omega), if_neg hempty]
    · simp only [if_neg hbefore]
      by_cases hend : n.toInt ≤ r.start.toInt + r.len.toInt
      · rw [if_pos (by omega), if_pos hend]
      · rw [if_neg (by omega), if_neg hend]

theorem nextRow_nonneg (hn : 0 ≤ n.toInt) (h : r.At n) : 0 ≤ r.nextRow := by
  have hat := h.toInt
  rw [nextRow_eq]
  split <;> omega

theorem goes_next (hn : 0 ≤ n.toInt) (h : r.At n) :
    r.Goes n ⟨a, .next, offset⟩ (scroll n a r.start r.len .next offset) := by
  have hrow : r.row n ⟨a, .next, offset⟩ = r.nextRow := rfl
  obtain ⟨s, hs, hscroll⟩ := scroll_next a offset hn h
  rw [hscroll]
  split
  · rename_i hend
    apply Rowset.Goes.none (within_none (.inr rfl))
    right
    left
    omega
  · apply Rowset.Goes.row
    · rw [hs, hrow]
    · rw [hrow]
      exact nextRow_nonneg hn h
    · show r.row n ⟨a, .next, offset⟩ < n.toInt
      omega
    · simp [Rowset.Leaves]

theorem goes_relative (hn : 0 ≤ n.toInt) (ha : 1 ≤ a.toInt) (h : r.At n) (hzero : offset ≠ 0) :
    r.Goes n ⟨a, .relative, offset⟩ (scroll n a r.start r.len .relative offset) := by
  have hat := h.toInt
  have hmax := n.toInt_lt
  have hmin := offset.le_toInt
  have hmaxOffset := offset.toInt_lt
  have hzero' : (0 : Int64).toInt = 0 := rfl
  have hone : (1 : Int64).toInt = 1 := rfl
  have hsum : (r.start + r.len).toInt = r.start.toInt + r.len.toInt := by
    apply toInt_add <;> omega
  have hrow : r.row n ⟨a, .relative, offset⟩ =
      if r.start.toInt = -1 ∧ 0 < offset.toInt then offset.toInt - 1
      else r.start.toInt + offset.toInt := by
    unfold Rowset.row
    simp only [← Int32.toInt_inj, toInt_neg_one]
  have hleaves : r.Leaves n ⟨a, .relative, offset⟩ ↔ 0 < offset.toInt ∧ r.len.toInt ≠ 0 ∧
      r.start.toInt + r.len.toInt = n.toInt := by
    simp [Rowset.Leaves, ← Int32.toInt_inj]
  have hne : offset.toInt ≠ 0 := by
    intro heq
    exact hzero (Int64.toInt_inj.1 heq)
  unfold scroll
  simp only [if_neg hzero]
  split
  · rename_i hpos
    rw [gt_iff_lt, Int64.lt_iff_toInt_lt, hzero'] at hpos
    simp only [← Int32.toInt_inj, ge_iff_le, Int32.le_iff_toInt_le, toInt_zero, toInt_neg_one, hsum]
    split
    · rename_i hend
      apply Rowset.Goes.none (within_none (.inr rfl))
      right
      rw [hleaves, hrow]
      simp only [and_true]
      split <;> omega
    · rename_i hinside
      have hleft : ¬r.Leaves n ⟨a, .relative, offset⟩ := by
        rw [hleaves]
        omega
      split
      · rename_i hbefore
        rw [if_pos ⟨hbefore, hpos⟩] at hrow
        apply goes_scrollTo (c := ⟨a, .relative, offset⟩) ha hleft <;> omega
      · rename_i hbefore
        rw [if_neg (by omega)] at hrow
        have hstart : (r.start + 1).toInt64.toInt = r.start.toInt + 1 := by
          rw [Int32.toInt_toInt64]
          apply toInt_add <;> rw [toInt_one] <;> omega
        -- An offset that is too large wraps around to before the first row.
        have hk : ((r.start + 1).toInt64 + offset).toInt = r.start.toInt + 1 + offset.toInt ∨
            n.toInt ≤ r.start.toInt + offset.toInt ∧
              ((r.start + 1).toInt64 + offset).toInt < 1 := by
          by_cases hlarge : 2 ^ 63 ≤ (r.start + 1).toInt64.toInt + offset.toInt
          · right
            rw [toInt_add64_of_large hlarge]
            omega
          · left
            rw [toInt_add64] <;> omega
        apply goes_scrollTo (c := ⟨a, .relative, offset⟩) ha hleft <;> omega
  · rename_i hpos
    rw [gt_iff_lt, Int64.lt_iff_toInt_lt, hzero'] at hpos
    rw [if_neg (by omega)] at hrow
    have hbefore : (if r.start = n then n else if r.start < 0 then 0 else r.start).toInt =
        max 0 r.start.toInt := by
      simp only [← Int32.toInt_inj, Int32.lt_iff_toInt_lt, toInt_zero]
      split
      · omega
      · split
        · rw [toInt_zero]
          omega
        · omega
    generalize (if r.start = n then n else if r.start < 0 then 0 else r.start) = before at *
    have hsum' : (before.toInt64 + offset).toInt = before.toInt + offset.toInt := by
      rw [toInt_add64] <;> rw [Int32.toInt_toInt64] <;> omega
    have hk : (before.toInt64 + offset + 1).toInt = before.toInt + offset.toInt + 1 := by
      rw [toInt_add64 (by omega) (by omega), hsum', hone]
    have hleft : ¬r.Leaves n ⟨a, .relative, offset⟩ := by
      rw [hleaves]
      omega
    apply goes_scrollTo (c := ⟨a, .relative, offset⟩) ha hleft <;> omega

theorem scroll_goes (hn : 0 ≤ n.toInt) (ha : 1 ≤ c.arraySize.toInt) (h : r.At n)
    (hzero : ¬(c.orientation = .relative ∧ c.offset = 0)) :
    r.Goes n c (scroll n c.arraySize r.start r.len c.orientation c.offset) := by
  obtain ⟨a, orientation, offset⟩ := c
  cases orientation with
  | next => exact goes_next hn h
  | first => exact goes_first hn
  | last => exact goes_last hn ha
  | prior => exact goes_prior hn ha h
  | absolute => exact goes_absolute hn ha
  | relative => exact goes_relative hn ha h fun heq => hzero ⟨rfl, heq⟩

/-! ## What a call returns -/

theorem row_absolute (h : c.orientation = .absolute) : r.row n c =
    if 0 < c.offset.toInt then c.offset.toInt - 1
    else if c.offset.toInt < 0 then n.toInt + c.offset.toInt else 0 := by
  unfold Rowset.row
  rw [h]

/-- From a rowset. -/
theorem row_relative (hat : r.At n) (h : c.orientation = .relative)
    (hlen : r.len ≠ 0) : 0 ≤ r.start.toInt ∧ r.row n c = r.start.toInt + c.offset.toInt := by
  have hlen' : r.len.toInt ≠ 0 := by
    intro heq
    exact hlen (Int32.toInt_inj.1 heq)
  have hstart : 0 ≤ r.start.toInt := by
    have hat := hat.toInt
    omega
  refine ⟨hstart, ?_⟩
  unfold Rowset.row
  simp only [h, ← Int32.toInt_inj, toInt_neg_one]
  rw [if_neg (by omega)]

theorem answers_relativeZero (hn : 0 ≤ n.toInt) (ha : 1 ≤ c.arraySize.toInt) (h : r.At n)
    (hrelative : c.orientation = .relative) (hzero : c.offset = 0) :
    r.Answers n c ⟨r.start, r.len, r.len = 0⟩ ↔ r.len.toInt ≤ c.arraySize.toInt := by
  have hat := h.toInt
  have hoffset : c.offset.toInt = 0 := by
    rw [hzero]
    rfl
  by_cases hlen : r.len = 0
  · have hlen' : r.len.toInt = 0 := by
      rw [hlen]
      rfl
    have hstart : r.start = -1 ∨ r.start = n := by
      simp only [← Int32.toInt_inj, toInt_neg_one]
      omega
    constructor
    · intro _
      omega
    · intro _
      constructor
      · simpa [Scrolled.Within, hlen] using hstart
      · simp [hrelative]
      · simp [hrelative]
      · intro _ hne
        exact absurd hlen hne
  · have hlen' : r.len.toInt ≠ 0 := by
      intro heq
      exact hlen (Int32.toInt_inj.1 heq)
    constructor
    · intro hanswers
      have hwithin := hanswers.within
      simp only [Scrolled.Within, hlen, decide_false, Bool.false_eq_true, if_false] at hwithin
      exact hwithin.2.2.1
    · intro hfits
      constructor
      · simp only [Scrolled.Within, hlen, decide_false, Bool.false_eq_true, if_false]
        omega
      · simp [hrelative]
      · simp [hrelative]
      · intro _ _ _ _
        refine ⟨by simp [hlen], ?_⟩
        show r.start.toInt = r.start.toInt + c.offset.toInt
        omega

/-- What a call returns is right exactly if the call fits. -/
theorem answers_iff (hn : 0 ≤ n.toInt) (ha : 1 ≤ c.arraySize.toInt) (h : r.At n) :
    r.Answers n c (scroll n c.arraySize r.start r.len c.orientation c.offset) ↔ r.Fits n c := by
  unfold Rowset.Fits
  by_cases hzero : c.orientation = .relative ∧ c.offset = 0
  · rw [if_pos hzero, ← answers_relativeZero hn ha h hzero.1 hzero.2]
    simp only [scroll, hzero.1, hzero.2, if_true]
  · rw [if_neg hzero]
    have hgoes := scroll_goes hn ha h hzero
    generalize scroll n c.arraySize r.start r.len c.orientation c.offset = t at *
    cases hgoes with
    | @row s hrow hlow hhigh hleaves =>
        have hwithin : (scrolledTo n c.arraySize s).Within n c.arraySize ↔
            r.row n c + c.arraySize.toInt < 2 ^ 31 := by
          rw [scrolledTo_within ha (by omega) (by omega), hrow]
        constructor
        · intro hanswers
          constructor
          · intro _ _
            exact hwithin.1 hanswers.within
          · intro hrelative hpos hlen hlast
            exact absurd ⟨hrelative, hpos, hlen, hlast⟩ hleaves
        · intro hfits
          constructor
          · exact hwithin.2 (hfits.1 hlow hhigh)
          · intro habsolute _ _
            rw [scrolledTo_startsAt, hrow, row_absolute habsolute, if_pos (by omega)]
          · intro habsolute _ _
            rw [scrolledTo_startsAt, hrow, row_absolute habsolute, if_neg (by omega),
              if_pos (by omega)]
          · intro hrelative hlen _ _
            rw [scrolledTo_startsAt, hrow]
            exact (row_relative h hrelative hlen).2
    | none hwithin hrow =>
        have hleaves (hlow : 0 ≤ r.row n c) (hhigh : r.row n c < n.toInt) :
            r.Leaves n c ∧ t.isNoData = true := by
          obtain hrow | hrow | hrow := hrow
          · omega
          · omega
          · exact hrow
        constructor
        · intro hanswers
          have hnone (hlow : 0 ≤ r.row n c) : n.toInt ≤ r.row n c := by
            apply Int.not_lt.1
            intro hhigh
            obtain ⟨⟨hrelative, -, hlen, -⟩, hdata⟩ := hleaves hlow hhigh
            obtain ⟨-, hrow⟩ := row_relative h hrelative hlen
            have hstarts := hanswers.relative hrelative hlen (by omega) (by omega)
            rw [hstarts.1] at hdata
            cases hdata
          constructor
          · intro hlow hhigh
            have := hnone hlow
            omega
          · intro hrelative hpos hlen _
            obtain ⟨hstart, hrow⟩ := row_relative h hrelative hlen
            exact hnone (by omega)
        · intro hfits
          have hnone (hlow : 0 ≤ r.row n c) : n.toInt ≤ r.row n c := by
            apply Int.not_lt.1
            intro hhigh
            obtain ⟨⟨hrelative, hpos, hlen, hlast⟩, -⟩ := hleaves hlow hhigh
            have := hfits.2 hrelative hpos hlen hlast
            omega
          constructor
          · exact hwithin
          · intro horientation hlow hhigh
            have hrow := row_absolute (r := r) (n := n) horientation
            rw [if_pos (by omega)] at hrow
            have := hnone (by omega)
            omega
          · intro horientation hlow hhigh
            have hrow := row_absolute (r := r) (n := n) horientation
            rw [if_neg (by omega), if_pos (by omega)] at hrow
            have := hnone (by omega)
            omega
          · intro hrelative hlen hlow hhigh
            obtain ⟨-, hrow⟩ := row_relative h hrelative hlen
            have := hnone (by omega)
            omega

/-! ## Runs -/

/-- The rows of the rowset, from 0. -/
def Scrolled.rows (s : Scrolled) : List Int :=
  if s.isNoData then [] else (List.range s.len.toInt.toNat).map fun i : Nat => s.start.toInt + i

def totalSize (calls : List ScrollCall) : Int := (calls.map (·.arraySize.toInt)).sum

/-- The rows that are returned by the calls, from the position `r`. -/
def rowsReturned (n : Int32) (r : Rowset) (calls : List ScrollCall) : List Int :=
  ((cursor n).outputs r calls).flatMap Scrolled.rows

/-- The first rows of the rowsets that are returned. -/
def startsReturned (n : Int32) (r : Rowset) (calls : List ScrollCall) : List Int :=
  (((cursor n).outputs r calls).filter (!·.isNoData)).map (·.start.toInt)

variable {calls : List ScrollCall}

theorem fetch_fst : (r.fetch n c).1 =
    scroll n c.arraySize r.start r.len c.orientation c.offset := by
  unfold Rowset.fetch
  dsimp only
  split <;> rfl

theorem Rowset.At.fetch (h : r.At n) (hwithin : (r.fetch n c).1.Within n c.arraySize) :
    (r.fetch n c).2.At n := by
  rw [fetch_fst] at hwithin
  unfold Rowset.fetch
  dsimp only
  generalize scroll n c.arraySize r.start r.len c.orientation c.offset = s at *
  unfold Scrolled.Within at hwithin
  split
  · rename_i hdata
    rw [if_pos hdata] at hwithin
    split
    · exact h
    · exact .inl ⟨rfl, hwithin.2⟩
  · rename_i hdata
    rw [if_neg hdata] at hwithin
    exact .inr ⟨hwithin.1, hwithin.2.1, hwithin.2.2.2⟩

theorem answers_run_iff (hn : 0 ≤ n.toInt) (hcalls : ∀ c ∈ calls, 1 ≤ c.arraySize.toInt)
    (h : r.At n) :
    (cursor n).Each (fun r c => r.Answers n c (r.fetch n c).1) r calls ↔
      (cursor n).Each (Rowset.Fits n) r calls := by
  induction calls generalizing r with
  | nil => exact Iff.rfl
  | cons c calls ih =>
      rw [List.forall_mem_cons] at hcalls
      have hfirst : r.Answers n c (r.fetch n c).1 ↔ r.Fits n c := by
        rw [fetch_fst]
        exact answers_iff hn hcalls.1 h
      constructor
      · rintro ⟨hanswers, hrest⟩
        exact ⟨hfirst.1 hanswers, (ih hcalls.2 (h.fetch hanswers.within)).1 hrest⟩
      · rintro ⟨hfits, hrest⟩
        have hanswers := hfirst.2 hfits
        exact ⟨hanswers, (ih hcalls.2 (h.fetch hanswers.within)).2 hrest⟩

theorem scrolledTo_rows (hs : 0 ≤ s.toInt) (hn : s.toInt < n.toInt) (ha : 1 ≤ a.toInt)
    (hfits : s.toInt + a.toInt < 2 ^ 31) :
    (scrolledTo n a s).len.toInt = min a.toInt (n.toInt - s.toInt) := by
  have hmax := n.toInt_lt
  simp only [scrolledTo, gt_iff_lt, Int32.lt_iff_toInt_lt]
  rw [toInt_add (by omega) hfits]
  split
  · rw [toInt_sub (by omega) (by omega)]
    omega
  · omega

/-- One NEXT returns the rows from the next one on, as many as there are. -/
theorem fetch_next (hn : 0 ≤ n.toInt) (ha : 1 ≤ c.arraySize.toInt) (h : r.At n)
    (hnext : c.orientation = .next) (hfits : r.Fits n c) :
    (n.toInt ≤ r.nextRow → (r.fetch n c).1 = ⟨n, 0, true⟩) ∧
      (r.fetch n c).1.rows = (List.range (min c.arraySize.toInt (n.toInt - r.nextRow)).toNat).map
        (fun i : Nat => r.nextRow + i) ∧
      (r.fetch n c).2.nextRow = min n.toInt (r.nextRow + c.arraySize.toInt) ∧
      (r.fetch n c).2.At n := by
  have hnonneg := nextRow_nonneg hn h
  obtain ⟨a, orientation, offset⟩ := c
  cases hnext
  obtain ⟨s, hs, hscroll⟩ := scroll_next a offset hn h
  have hat : (r.fetch n ⟨a, .next, offset⟩).2.At n := by
    apply h.fetch
    rw [fetch_fst]
    exact ((answers_iff hn ha h).2 hfits).within
  by_cases hend : n.toInt ≤ r.nextRow
  · rw [if_pos hend] at hscroll
    have hfetch : r.fetch n ⟨a, .next, offset⟩ = (⟨n, 0, true⟩, ⟨n, 0⟩) := by
      simp [Rowset.fetch, hscroll]
    rw [hfetch] at hat ⊢
    refine ⟨fun _ => rfl, ?_, ?_, hat⟩
    · have hnone : (min a.toInt (n.toInt - r.nextRow)).toNat = 0 := by omega
      simp [Scrolled.rows, hnone]
    · have hne : ¬n.toInt = -1 := by omega
      rw [nextRow_eq, if_neg hne]
      show n.toInt + 0 = min n.toInt (r.nextRow + a.toInt)
      dsimp only at ha
      omega
  · rw [if_neg hend] at hscroll
    have hlt : r.nextRow < n.toInt := by omega
    have hfits' : s.toInt + a.toInt < 2 ^ 31 := by
      rw [hs]
      exact hfits.1 hnonneg hlt
    have hlen : (scrolledTo n a s).len.toInt = min a.toInt (n.toInt - s.toInt) :=
      scrolledTo_rows (by omega) (by omega) ha hfits'
    have hfetch : r.fetch n ⟨a, .next, offset⟩ =
        (scrolledTo n a s, ⟨s, (scrolledTo n a s).len⟩) := by
      rw [Rowset.fetch, hscroll]
      rfl
    rw [hfetch] at hat ⊢
    refine ⟨fun hle => absurd hle hend, ?_, ?_, hat⟩
    · show ((List.range (scrolledTo n a s).len.toInt.toNat).map fun i : Nat => s.toInt + i) = _
      rw [hlen, hs]
    · have hne : ¬s.toInt = -1 := by omega
      rw [nextRow_eq, if_neg hne]
      show s.toInt + (scrolledTo n a s).len.toInt = min n.toInt (r.nextRow + a.toInt)
      omega

theorem totalSize_cons : totalSize (c :: calls) = c.arraySize.toInt + totalSize calls :=
  List.sum_cons

theorem totalSize_nonneg (hcalls : ∀ c ∈ calls, 1 ≤ c.arraySize.toInt) : 0 ≤ totalSize calls := by
  induction calls with
  | nil => exact Int.le_refl 0
  | cons c calls ih =>
      rw [List.forall_mem_cons] at hcalls
      have hrest := ih hcalls.2
      rw [totalSize_cons]
      omega

theorem range_append {x y : Int} {m k l : Nat} (hy : y = x + m) (hl : l = m + k) :
    (List.range m).map (fun i : Nat => x + (i : Int)) ++
    (List.range k).map (fun i : Nat => y + (i : Int)) =
      (List.range l).map fun i : Nat => x + (i : Int) := by
  rw [hl, List.range_add, List.map_append, List.map_map, hy]
  congr 2
  funext i
  simp only [Function.comp_apply, Int.natCast_add]
  omega

/-- NEXT returns every row from the next one on once, in order. -/
theorem rowsReturned_next (hn : 0 ≤ n.toInt) (hcalls : ∀ c ∈ calls, 1 ≤ c.arraySize.toInt)
    (h : r.At n) (hle : r.nextRow ≤ n.toInt) (hnext : ∀ c ∈ calls, c.orientation = .next)
    (hfits : (cursor n).Each (Rowset.Fits n) r calls) :
    rowsReturned n r calls =
        (List.range (min (totalSize calls) (n.toInt - r.nextRow)).toNat).map
          (fun i : Nat => r.nextRow + i) ∧
      ((cursor n).after r calls).nextRow = min n.toInt (r.nextRow + totalSize calls) ∧
      ((cursor n).after r calls).At n := by
  induction calls generalizing r with
  | nil =>
      have hzero : (min (totalSize []) (n.toInt - r.nextRow)).toNat = 0 := by
        have hempty : totalSize [] = 0 := rfl
        omega
      refine ⟨?_, ?_, h⟩
      · rw [hzero]
        rfl
      · show r.nextRow = min n.toInt (r.nextRow + 0)
        omega
  | cons c calls ih =>
      rw [List.forall_mem_cons] at hcalls hnext
      obtain ⟨-, hrows, hnextRow, hat⟩ := fetch_next hn hcalls.1 h hnext.1 hfits.1
      obtain ⟨hrows', hnextRow', hat'⟩ :=
        ih hcalls.2 hat (by omega) hnext.2 hfits.2
      have htotal := totalSize_nonneg hcalls.2
      refine ⟨?_, ?_, hat'⟩
      · have happend : rowsReturned n r (c :: calls) =
            (r.fetch n c).1.rows ++ rowsReturned n (r.fetch n c).2 calls := rfl
        rw [happend, hrows, hrows', totalSize_cons]
        apply range_append <;> omega
      · show ((cursor n).after (r.fetch n c).2 calls).nextRow = _
        rw [hnextRow', hnextRow, totalSize_cons]
        omega

theorem mem_rows {t : Scrolled} {i : Int} : i ∈ t.rows ↔
    t.isNoData = false ∧ t.start.toInt ≤ i ∧ i < t.start.toInt + t.len.toInt := by
  unfold Scrolled.rows
  cases t.isNoData with
  | true => simp
  | false =>
      simp only [Bool.false_eq_true, if_false, List.mem_map, List.mem_range, true_and]
      constructor
      · rintro ⟨m, hm, rfl⟩
        omega
      · intro hi
        exact ⟨(i - t.start.toInt).toNat, by omega, by omega⟩

/-- One PRIOR returns the rowset that ends before the rowset, or the first one. -/
theorem fetch_prior (ha : 1 ≤ c.arraySize.toInt) (h : r.At n) (hprior : c.orientation = .prior) :
    (r.start.toInt ≤ 0 ∧ r.fetch n c = (⟨-1, 0, true⟩, ⟨-1, 0⟩)) ∨
      (0 < r.start.toInt ∧ ∃ s len : Int32, s.toInt = max 0 (r.start.toInt - c.arraySize.toInt) ∧
        len.toInt = min c.arraySize.toInt (n.toInt - s.toInt) ∧
        r.fetch n c = (⟨s, len, false⟩, ⟨s, len⟩) ∧ (⟨s, len⟩ : Rowset).At n) := by
  have hat := h.toInt
  obtain ⟨a, orientation, offset⟩ := c
  cases hprior
  obtain ⟨s, hs, hscroll⟩ := scroll_prior offset ha h
  dsimp only at ha hs
  by_cases hfirst : r.start.toInt ≤ 0
  · rw [if_pos hfirst] at hscroll
    left
    refine ⟨hfirst, ?_⟩
    simp [Rowset.fetch, hscroll]
  · rw [if_neg hfirst] at hscroll
    right
    have hmax := r.start.toInt_lt
    have hmax' := a.toInt_lt
    have hlen : (scrolledTo n a s).len.toInt = min a.toInt (n.toInt - s.toInt) :=
      scrolledTo_rows (by omega) (by omega) ha (by omega)
    refine ⟨by omega, s, (scrolledTo n a s).len, hs, hlen, ?_, ?_⟩
    · rw [Rowset.fetch, hscroll]
      rfl
    · right
      dsimp only
      omega

/-- PRIOR returns every row before the position, going back. -/
theorem rowsReturned_prior (hn : 0 ≤ n.toInt) (hcalls : ∀ c ∈ calls, 1 ≤ c.arraySize.toInt)
    (h : r.At n)
    (hprior : ∀ c ∈ calls, c.orientation = .prior) :
    (∀ i, max 0 (r.start.toInt - totalSize calls) ≤ i → i < r.start.toInt →
        i ∈ rowsReturned n r calls) ∧
      (∀ i ∈ rowsReturned n r calls,
        max 0 (r.start.toInt - totalSize calls) ≤ i ∧ i < n.toInt) ∧
      (startsReturned n r calls).Pairwise (· > ·) ∧
      ∀ i ∈ startsReturned n r calls, i < r.start.toInt := by
  induction calls generalizing r with
  | nil =>
      refine ⟨?_, ?_, List.Pairwise.nil, ?_⟩
      · intro i hlow hhigh
        have hempty : totalSize [] = 0 := rfl
        omega
      · intro i hi
        cases hi
      · intro i hi
        cases hi
  | cons c calls ih =>
      rw [List.forall_mem_cons] at hcalls hprior
      have htotal := totalSize_nonneg hcalls.2
      have happend : rowsReturned n r (c :: calls) =
          (r.fetch n c).1.rows ++ rowsReturned n (r.fetch n c).2 calls := rfl
      have hstarts : startsReturned n r (c :: calls) =
          (if (r.fetch n c).1.isNoData then [] else [(r.fetch n c).1.start.toInt]) ++
            startsReturned n (r.fetch n c).2 calls := by
        have houtputs : (cursor n).outputs r (c :: calls) =
            (r.fetch n c).1 :: (cursor n).outputs (r.fetch n c).2 calls := rfl
        rw [startsReturned, houtputs, List.filter_cons]
        cases (r.fetch n c).1.isNoData with
        | true => rfl
        | false => rfl
      rw [happend, hstarts, totalSize_cons]
      obtain ⟨hfirst, hfetch⟩ | ⟨hpos, s, len, hs, hlen, hfetch, hat⟩ :=
        fetch_prior hcalls.1 h hprior.1
      · obtain ⟨-, hwithin, hpairwise, hbefore⟩ :=
          ih (r := ⟨-1, 0⟩) hcalls.2 (.inl ⟨rfl, .inl rfl⟩) hprior.2
        rw [hfetch]
        refine ⟨?_, ?_, hpairwise, ?_⟩
        · intro i hlow hhigh
          omega
        · intro i hi
          have hi := hwithin i hi
          omega
        · intro i hi
          have hi := hbefore i hi
          have hat := h.toInt
          dsimp only at hi
          rw [toInt_neg_one] at hi
          omega
      · obtain ⟨hvisited, hwithin, hpairwise, hbefore⟩ := ih hcalls.2 hat hprior.2
        rw [hfetch]
        dsimp only at *
        refine ⟨?_, ?_, ?_, ?_⟩
        · intro i hlow hhigh
          rw [List.mem_append, mem_rows]
          by_cases hrest : i < s.toInt
          · right
            apply hvisited i _ hrest
            omega
          · left
            have hat := h.toInt
            refine ⟨rfl, ?_⟩
            dsimp only
            omega
        · intro i hi
          rw [List.mem_append, mem_rows] at hi
          obtain ⟨-, hlow, hhigh⟩ | hi := hi
          · dsimp only at hlow hhigh
            have hat := hat.toInt
            dsimp only at hat
            omega
          · have hi := hwithin i hi
            omega
        · simp only [Bool.false_eq_true, if_false, List.singleton_append, List.pairwise_cons]
          exact ⟨hbefore, hpairwise⟩
        · simp only [Bool.false_eq_true, if_false, List.singleton_append, List.forall_mem_cons]
          constructor
          · omega
          · intro i hi
            have hi := hbefore i hi
            omega

/-! ## Every run -/

/-- What a run of calls returns, from before the first row. -/
structure SoundRun (n : Int32) (calls : List ScrollCall) : Prop where
  answers : (cursor n).Each (fun r c => r.Answers n c (r.fetch n c).1) .beforeFirst calls
  next : ∀ pre part post, calls = pre ++ (part ++ post) →
    (cursor n).after .beforeFirst pre = .beforeFirst → (∀ c ∈ part, c.orientation = .next) →
      rowsReturned n .beforeFirst part =
          (List.range (min (totalSize part) n.toInt).toNat).map (fun i : Nat => (i : Int)) ∧
        (n.toInt ≤ totalSize part → ∀ c ∈ post.head?, c.orientation = .next →
          (((cursor n).after .beforeFirst part).fetch n c).1 = ⟨n, 0, true⟩)
  prior : ∀ pre part post, calls = pre ++ (part ++ post) →
    (cursor n).after .beforeFirst pre = ⟨n, 0⟩ → (∀ c ∈ part, c.orientation = .prior) →
      (∀ i, i ∈ rowsReturned n ⟨n, 0⟩ part ↔
        max 0 (n.toInt - totalSize part) ≤ i ∧ i < n.toInt) ∧
      (startsReturned n ⟨n, 0⟩ part).Pairwise (· > ·)

theorem at_beforeFirst : Rowset.At n .beforeFirst := .inl ⟨rfl, .inl rfl⟩

/-- The runs that are right are those whose calls all fit. -/
theorem soundRun_iff (hn : 0 ≤ n.toInt) (hcalls : ∀ c ∈ calls, 1 ≤ c.arraySize.toInt) :
    SoundRun n calls ↔ (cursor n).Each (Rowset.Fits n) .beforeFirst calls := by
  constructor
  · intro hsound
    exact (answers_run_iff hn hcalls at_beforeFirst).1 hsound.answers
  · intro hfits
    constructor
    · exact (answers_run_iff hn hcalls at_beforeFirst).2 hfits
    · rintro pre part post rfl hpre hnext
      rw [Machine.each_append, Machine.each_append, hpre] at hfits
      obtain ⟨-, hpart, hpost⟩ := hfits
      have hparts : ∀ c ∈ part, 1 ≤ c.arraySize.toInt := fun c hc => hcalls c (by simp [hc])
      have hzero : Rowset.beforeFirst.nextRow = 0 := rfl
      obtain ⟨hrows, hnextRow, hat⟩ :=
        rowsReturned_next hn hparts at_beforeFirst (by omega) hnext hpart
      rw [hzero] at hrows hnextRow
      constructor
      · rw [hrows]
        simp
      · intro htotal c hc hnext
        cases post with
        | nil => cases hc
        | cons c' post =>
            cases hc
            have hsize : 1 ≤ c.arraySize.toInt := hcalls c (by simp)
            apply (fetch_next hn hsize hat hnext hpost.1).1
            omega
    · rintro pre part post rfl - hprior
      have hparts : ∀ c ∈ part, 1 ≤ c.arraySize.toInt := fun c hc => hcalls c (by simp [hc])
      obtain ⟨hvisited, hwithin, hpairwise, -⟩ :=
        rowsReturned_prior hn hparts (.inl ⟨rfl, .inr rfl⟩ : Rowset.At n ⟨n, 0⟩) hprior
      refine ⟨fun i => ⟨hwithin i, fun hi => hvisited i hi.1 hi.2⟩, hpairwise⟩

/-- ARRAY_SIZE 2 of three rows: NEXT, RELATIVE 1, PRIOR. -/
def scrolledThree : List ScrollCall := [⟨2, .next, 0⟩, ⟨2, .relative, 1⟩, ⟨2, .prior, 0⟩]

theorem soundRun_iff_scrolledThree :
    SoundRun 3 scrolledThree ↔ (cursor 3).Each (Rowset.Fits 3) .beforeFirst scrolledThree :=
  soundRun_iff (by decide) (by decide)

/-- A RELATIVE 0 returns the three rows of the rowset for an array of one row, and a RELATIVE 1
from the first of three rows is after the last row. -/
theorem not_soundRun :
    ¬SoundRun 3 [⟨3, .next, 0⟩, ⟨1, .relative, 0⟩] ∧
      ¬SoundRun 3 [⟨3, .next, 0⟩, ⟨3, .relative, 1⟩] ∧
      ¬SoundRun 2 [⟨1, .next, 0⟩, ⟨2147483647, .next, 0⟩] := by
  refine ⟨?_, ?_, ?_⟩
  · intro hsound
    exact absurd hsound.answers.2.1.within (by decide)
  · intro hsound
    exact absurd (hsound.answers.2.1.relative rfl (by decide) (by decide) (by decide)) (by decide)
  · intro hsound
    exact absurd hsound.answers.2.1.within (by decide)

end Vsql.Cli
