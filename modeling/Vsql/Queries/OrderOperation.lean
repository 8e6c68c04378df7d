import Vsql.Queries.RowOrder

/-!
# ORDER BY

`execute` evaluates the sort keys of each row once and sorts the positions of the rows with a
bottom-up merge sort.  Every list of rows is sorted, with equal rows in the order they came in,
if and only if the comparison of their sort keys is transitive.
-/

namespace Vsql

open Foundation
open Foundation.MergeSort

/-! ## Arrays -/

def readIndex {α : Type} (xs : List α) (i : Nat) : Except Failure α :=
  match xs[i]? with
  | some x => .ok x
  | none => .error outOfRange

def writeIndex {α : Type} (xs : List α) (i : Nat) (x : α) : Except Failure (List α) :=
  if i < xs.length then .ok (xs.set i x) else .error outOfRange

/-! ## Merging two runs -/

/-- The positions of the next items of the two runs and of the buffer. -/
structure Merging where
  i : Nat
  j : Nat
  k : Nat
  buffer : List Nat

namespace OrderOperation

/-- `for i < mid && j < hi` -/
def mergeBoth (cmp : Nat → Nat → Except Failure Int) (positions : List Nat) (mid hi : Nat)
    (s : Merging) : Except Failure Merging :=
  if s.i < mid ∧ s.j < hi then do
    let left ← readIndex positions s.i
    let right ← readIndex positions s.j
    if (← cmp right left) < 0 then do
      let buffer ← writeIndex s.buffer s.k right
      mergeBoth cmp positions mid hi ⟨s.i, s.j + 1, s.k + 1, buffer⟩
    else do
      let buffer ← writeIndex s.buffer s.k left
      mergeBoth cmp positions mid hi ⟨s.i + 1, s.j, s.k + 1, buffer⟩
  else .ok s
termination_by (mid - s.i) + (hi - s.j)

/-- `for i < stop { target[k] = source[i] }` -/
def copyRun (source : List Nat) (stop i k : Nat) (target : List Nat) :
    Except Failure (Nat × List Nat) :=
  if i < stop then do
    let x ← readIndex source i
    let target ← writeIndex target k x
    copyRun source stop (i + 1) (k + 1) target
  else .ok (k, target)
termination_by stop - i

/-- Merges the rest of the run until `mid` and the rest of the run until `hi`. -/
def mergeInto (cmp : Nat → Nat → Except Failure Int) (positions : List Nat) (mid hi : Nat)
    (s : Merging) : Except Failure (List Nat) := do
  let s ← mergeBoth cmp positions mid hi s
  let (k, buffer) ← copyRun positions mid s.i s.k s.buffer
  let (_, buffer) ← copyRun positions hi s.j k buffer
  pure buffer

/-- Merges the run from `lo` with the next one, and copies them back. -/
def mergeAt (cmp : Nat → Nat → Except Failure Int) (n width lo : Nat)
    (positions buffer : List Nat) : Except Failure (List Nat × List Nat) := do
  let mid := lo + width
  let hi := if mid + width < n then mid + width else n
  let buffer ← mergeInto cmp positions mid hi ⟨lo, mid, lo, buffer⟩
  let (_, positions) ← copyRun buffer hi lo lo positions
  pure (positions, buffer)

/-- `for lo := 0; lo < rows.len - width; lo += 2 * width` -/
def mergeFrom (cmp : Nat → Nat → Except Failure Int) (n width : Nat) (hwidth : 0 < width)
    (lo : Nat) (positions buffer : List Nat) : Except Failure (List Nat × List Nat) :=
  if lo < n - width then do
    let (positions, buffer) ← mergeAt cmp n width lo positions buffer
    mergeFrom cmp n width hwidth (lo + 2 * width) positions buffer
  else .ok (positions, buffer)
termination_by n - lo

/-- `for width < rows.len` -/
def mergeWidths (cmp : Nat → Nat → Except Failure Int) (n width : Nat) (hwidth : 0 < width)
    (positions buffer : List Nat) : Except Failure (List Nat) :=
  if width < n then do
    let (positions, buffer) ← mergeFrom cmp n width hwidth 0 positions buffer
    mergeWidths cmp n (width * 2) (Nat.mul_pos hwidth two_pos) positions buffer
  else .ok positions
termination_by n - width

/-- Compares the keys at two positions. -/
def cmpAt (tz : TimeZone) (order : List SortSpecification) (keys : List (List Value))
    (p q : Nat) : Except Failure Int := do
  let left ← readIndex keys p
  let right ← readIndex keys q
  sortKeysCmp tz left right order

def sortPositions (tz : TimeZone) (order : List SortSpecification) (keys : List (List Value)) :
    Except Failure (List Nat) :=
  mergeWidths (cmpAt tz order keys) keys.length 1 one_pos (List.range keys.length)
    (List.replicate keys.length 0)

section

variable {Row Session : Type}

/-- The sort keys of each row. -/
def evaluateKeys (compiled : List (Row → StateT Session (Except Failure) Value))
    (rows : List Row) : StateT Session (Except Failure) (List (List Value)) :=
  rows.mapM fun row => compiled.mapM fun e => e row

def execute (tz : TimeZone) (order : List SortSpecification)
    (compiled : List (Row → StateT Session (Except Failure) Value)) (rows : List Row) :
    StateT Session (Except Failure) (List Row) :=
  if rows.length < 2 then pure rows
  else do
    let keys ← evaluateKeys compiled rows
    let positions ← StateT.lift (sortPositions tz order keys)
    StateT.lift (positions.mapM (readIndex rows))

end

/-! ## What the loops write -/

section Loops

variable {α : Type}

theorem readIndex_of_lt {xs : List α} {i : Nat} (h : i < xs.length) :
    readIndex xs i = .ok xs[i] := by
  rw [readIndex, List.getElem?_eq_getElem h]

theorem writeIndex_of_lt {xs : List α} {i : Nat} (h : i < xs.length) (x : α) :
    writeIndex xs i x = .ok (xs.set i x) :=
  if_pos h

/-- The items from `i` until `stop`. -/
def slice (xs : List α) (i stop : Nat) : List α := (xs.drop i).take (stop - i)

/-- The list with `xs` from `k` on. -/
def overwrite (target : List α) (k : Nat) (xs : List α) : List α :=
  target.take k ++ (xs ++ target.drop (k + xs.length))

theorem slice_cons {xs : List α} {i stop : Nat} (hi : i < stop) (hstop : stop ≤ xs.length) :
    slice xs i stop = xs[i] :: slice xs (i + 1) stop := by
  have hlt : i < xs.length := by omega
  obtain ⟨k, hk⟩ : ∃ k, stop - i = k + 1 := ⟨stop - i - 1, by omega⟩
  have hk' : stop - (i + 1) = k := by omega
  rw [slice, List.drop_eq_getElem_cons hlt, hk, List.take_succ_cons, slice, hk']

theorem slice_nil {xs : List α} {i stop : Nat} (h : stop ≤ i) : slice xs i stop = [] := by
  rw [slice, Nat.sub_eq_zero_of_le h, List.take_zero]

theorem length_overwrite {target xs : List α} {k : Nat} (h : k + xs.length ≤ target.length) :
    (overwrite target k xs).length = target.length := by
  simp only [overwrite, List.length_append, List.length_take, List.length_drop]
  omega

theorem overwrite_nil (target : List α) (k : Nat) : overwrite target k [] = target := by
  rw [overwrite, List.nil_append, List.length_nil, Nat.add_zero, List.take_append_drop]

theorem overwrite_set {target : List α} {k : Nat} (h : k < target.length) (x : α)
    (xs : List α) : overwrite (target.set k x) (k + 1) xs = overwrite target k (x :: xs) := by
  have hdrop : (target.set k x).drop (k + 1 + xs.length) =
      target.drop (k + (x :: xs).length) := by
    rw [List.drop_set_of_lt (by omega), List.length_cons]
    congr 1
    omega
  have htake : (target.set k x).take (k + 1) = target.take k ++ [x] := by
    rw [List.take_set, List.take_succ_eq_append_getElem h, List.set_append_right _ _ (by simp)]
    simp [h.le]
  rw [overwrite, hdrop, htake, overwrite]
  simp

theorem slice_overwrite {target xs : List α} {k : Nat} (h : k ≤ target.length) :
    slice (overwrite target k xs) k (k + xs.length) = xs := by
  have htake : (target.take k).length = k := by
    rw [List.length_take]
    omega
  rw [slice, overwrite, List.drop_left' htake, Nat.add_sub_cancel_left, List.take_left]

/-- The items from `i` until `stop`, or until the end. -/
theorem slice_min (xs : List α) (i width : Nat) :
    slice xs i (min (i + width) xs.length) = (xs.drop i).take width := by
  rw [slice]
  obtain h | h := le_total (i + width) xs.length
  · rw [min_eq_left h, Nat.add_sub_cancel_left]
  · rw [min_eq_right h, List.take_of_length_le (by rw [List.length_drop]),
      List.take_of_length_le (by rw [List.length_drop]; omega)]

end Loops

theorem copyRun_eq {source target : List Nat} {stop i k : Nat} (hstop : stop ≤ source.length)
    (hfit : k + (stop - i) ≤ target.length) : copyRun source stop i k target =
      .ok (k + (stop - i), overwrite target k (slice source i stop)) := by
  induction hn : stop - i generalizing i k target with
  | zero =>
      rw [copyRun, if_neg (by omega), slice_nil (by omega), overwrite_nil, Nat.add_zero]
  | succ n ih =>
      have hi : i < stop := by omega
      have hlt : i < source.length := by omega
      have hk : k < target.length := by omega
      have hrest := @ih (target.set k source[i]) (i + 1) (k + 1)
        (by rw [List.length_set]; omega) (by omega)
      rw [copyRun, if_pos hi, readIndex_of_lt hlt]
      change (writeIndex target k _ >>= _) = _
      rw [writeIndex_of_lt hk]
      change copyRun source stop (i + 1) (k + 1) _ = _
      rw [hrest, overwrite_set hk, ← slice_cons hi hstop]
      congr 2
      omega

section Sorting

variable {cmp : Nat → Nat → Except Failure Int} {less : Nat → Nat → Bool}

/-- The comparison of positions never fails. -/
def Decides (cmp : Nat → Nat → Except Failure Int) (less : Nat → Nat → Bool)
    (positions : List Nat) : Prop :=
  ∀ p ∈ positions, ∀ q ∈ positions, ∃ c, cmp p q = .ok c ∧ (c < 0 ↔ less p q = true)

theorem mergeInto_left {positions : List Nat} {mid hi : Nat} {s : Merging}
    (hi' : ¬s.j < hi) (hmid : mid ≤ positions.length)
    (hfit : s.k + (mid - s.i) ≤ s.buffer.length) : mergeInto cmp positions mid hi s =
      .ok (overwrite s.buffer s.k (slice positions s.i mid)) := by
  rw [mergeInto, mergeBoth, if_neg (by omega)]
  change (copyRun positions mid s.i s.k s.buffer >>= _) = _
  rw [copyRun_eq hmid hfit]
  change (copyRun positions hi s.j _ _ >>= _) = _
  rw [copyRun, if_neg hi']
  rfl

theorem mergeInto_right {positions : List Nat} {mid hi : Nat} {s : Merging}
    (hmid : ¬s.i < mid) (hhi : hi ≤ positions.length)
    (hfit : s.k + (hi - s.j) ≤ s.buffer.length) : mergeInto cmp positions mid hi s =
      .ok (overwrite s.buffer s.k (slice positions s.j hi)) := by
  rw [mergeInto, mergeBoth, if_neg (by omega)]
  change (copyRun positions mid s.i s.k s.buffer >>= _) = _
  rw [copyRun, if_neg hmid]
  change (copyRun positions hi s.j s.k s.buffer >>= _) = _
  rw [copyRun_eq hhi hfit]
  rfl

/-- One round of the loop over both runs. -/
theorem mergeInto_both {positions : List Nat} {mid hi : Nat} {s : Merging} {c : Int}
    (hmid : s.i < mid) (hhi : s.j < hi) (hleft : s.i < positions.length)
    (hright : s.j < positions.length) (hk : s.k < s.buffer.length)
    (hc : cmp positions[s.j] positions[s.i] = .ok c) :
    mergeInto cmp positions mid hi s =
      if c < 0 then mergeInto cmp positions mid hi
        ⟨s.i, s.j + 1, s.k + 1, s.buffer.set s.k positions[s.j]⟩
      else mergeInto cmp positions mid hi
        ⟨s.i + 1, s.j, s.k + 1, s.buffer.set s.k positions[s.i]⟩ := by
  rw [mergeInto, mergeBoth, if_pos ⟨hmid, hhi⟩, readIndex_of_lt hleft, readIndex_of_lt hright]
  change ((cmp positions[s.j] positions[s.i] >>= _) >>= _) = _
  rw [hc]
  change ((if c < 0 then _ else _) >>= _) = _
  rw [writeIndex_of_lt hk, writeIndex_of_lt hk]
  split_ifs <;> rfl

theorem mergeInto_eq {positions : List Nat} {mid hi : Nat} {s : Merging}
    (hcmp : Decides cmp less positions) (hmid : mid ≤ positions.length)
    (hhi : hi ≤ positions.length)
    (hfit : s.k + ((mid - s.i) + (hi - s.j)) ≤ s.buffer.length) :
    mergeInto cmp positions mid hi s = .ok (overwrite s.buffer s.k
      (mergeRuns less (slice positions s.i mid) (slice positions s.j hi))) := by
  induction hn : (mid - s.i) + (hi - s.j) generalizing s with
  | zero =>
      rw [mergeInto_left (by omega) hmid (by omega), slice_nil (by omega), slice_nil (by omega),
        mergeRuns, List.nil_merge]
  | succ n ih =>
      by_cases hleft : s.i < mid
      swap
      · rw [mergeInto_right hleft hhi (by omega), slice_nil (i := s.i) (by omega), mergeRuns,
          List.nil_merge]
      by_cases hright : s.j < hi
      swap
      · rw [mergeInto_left hright hmid (by omega), slice_nil (i := s.j) (by omega), mergeRuns,
          List.merge_right]
      have hk : s.k < s.buffer.length := by omega
      have hi' : s.i < positions.length := by omega
      have hj' : s.j < positions.length := by omega
      obtain ⟨c, hc, hless⟩ :=
        hcmp _ (List.getElem_mem hj') _ (List.getElem_mem hi')
      rw [mergeInto_both hleft hright hi' hj' hk hc, slice_cons hleft hmid,
        slice_cons hright hhi, mergeRuns]
      split_ifs with hneg
      · rw [ih (by simp only [List.length_set]; omega) (by dsimp only; omega), overwrite_set hk,
          List.cons_merge_cons_neg (fun a b => !less b a) _ _ (by simpa using hless.mp hneg),
          ← slice_cons hleft hmid]
        rfl
      · have hnot : less positions[s.j] positions[s.i] = false := by
          simpa using mt hless.mpr hneg
        rw [ih (by simp only [List.length_set]; omega) (by dsimp only; omega), overwrite_set hk,
          List.cons_merge_cons_pos (fun a b => !less b a) _ _ (by simpa using hnot),
          ← slice_cons hright hhi]
        rfl

/-- The run from `lo` merged with the next one, and the rest. -/
def mergedAt (less : Nat → Nat → Bool) (width lo : Nat) (positions : List Nat) : List Nat :=
  mergeRuns less ((positions.drop lo).take width) (((positions.drop lo).drop width).take width)

theorem length_mergedAt (width lo : Nat) (positions : List Nat) :
    (mergedAt less width lo positions).length = min (2 * width) (positions.length - lo) := by
  rw [mergedAt, (mergeRuns_perm _ _ _).length_eq]
  simp only [List.length_append, List.length_take, List.length_drop]
  omega

theorem mergeAt_eq {n width lo : Nat} {positions buffer : List Nat}
    (hcmp : Decides cmp less positions) (hlength : positions.length = n)
    (hbuffer : buffer.length = n) (hlo : lo + width < n) :
    ∃ buffer' : List Nat, buffer'.length = n ∧
      mergeAt cmp n width lo positions buffer =
        .ok (overwrite positions lo (mergedAt less width lo positions), buffer') := by
  obtain ⟨mid, hmid⟩ : ∃ mid, mid = lo + width := ⟨_, rfl⟩
  obtain ⟨hi, hhi⟩ : ∃ hi, hi = if mid + width < n then mid + width else n := ⟨_, rfl⟩
  have hmin : hi = min (mid + width) positions.length := by
    rw [hhi]
    split_ifs <;> omega
  have hleft : slice positions lo mid = (positions.drop lo).take width := by
    rw [← slice_min, hmid, min_eq_left (by omega)]
  have hright : slice positions mid hi = ((positions.drop lo).drop width).take width := by
    rw [hmin, slice_min, List.drop_drop, ← hmid]
  have hinto := @mergeInto_eq cmp less positions mid hi ⟨lo, mid, lo, buffer⟩ hcmp (by omega)
    (by omega) (by dsimp only; omega)
  dsimp only at hinto
  rw [hleft, hright] at hinto
  have hsize : lo + (mergedAt less width lo positions).length = hi := by
    rw [length_mergedAt]
    omega
  have hback := @copyRun_eq (overwrite buffer lo (mergedAt less width lo positions)) positions hi
    lo lo (by rw [length_overwrite (by omega)]; omega) (by omega)
  rw [← hsize, slice_overwrite (by omega), hsize] at hback
  refine ⟨overwrite buffer lo (mergedAt less width lo positions), ?_, ?_⟩
  · rw [length_overwrite (by omega), hbuffer]
  · rw [mergeAt, ← hmid, ← hhi, hinto]
    change (copyRun (overwrite buffer lo (mergedAt less width lo positions)) hi lo lo positions
      >>= _) = _
    rw [hback]
    rfl

theorem Decides.mono {l l' : List Nat} (h : Decides cmp less l) (hsub : ∀ p ∈ l', p ∈ l) :
    Decides cmp less l' :=
  fun p hp q hq => h p (hsub p hp) q (hsub q hq)

theorem mem_of_mem_overwrite {width lo p : Nat} {positions : List Nat}
    (h : p ∈ overwrite positions lo (mergedAt less width lo positions)) : p ∈ positions := by
  rw [overwrite, List.mem_append, List.mem_append, mergedAt, (mergeRuns_perm _ _ _).mem_iff,
    List.mem_append] at h
  obtain h | (h | h) | h := h
  · exact List.mem_of_mem_take h
  · exact List.mem_of_mem_drop (List.mem_of_mem_take h)
  · exact List.mem_of_mem_drop (List.mem_of_mem_drop (List.mem_of_mem_take h))
  · exact List.mem_of_mem_drop h

/-- What is before the next two runs, and these and the ones after them. -/
theorem split_overwrite {width lo : Nat} {positions : List Nat} (h : lo ≤ positions.length) :
    (overwrite positions lo (mergedAt less width lo positions)).take (lo + 2 * width) =
        positions.take lo ++ mergedAt less width lo positions ∧
      (overwrite positions lo (mergedAt less width lo positions)).drop (lo + 2 * width) =
        positions.drop (lo + 2 * width) := by
  have hsize := @length_mergedAt less width lo positions
  have htake : (positions.take lo ++ mergedAt less width lo positions).length =
      lo + (mergedAt less width lo positions).length := by
    rw [List.length_append, List.length_take, min_eq_left h]
  rw [overwrite, ← List.append_assoc]
  by_cases hfull : lo + 2 * width ≤ positions.length
  · have hwidth : lo + (mergedAt less width lo positions).length = lo + 2 * width := by omega
    rw [List.take_left' (htake.trans hwidth), List.drop_left' (htake.trans hwidth), hwidth]
    exact ⟨rfl, rfl⟩
  · rw [List.drop_of_length_le (l := positions) (by omega), List.append_nil,
      List.take_of_length_le (by omega), List.drop_of_length_le (by omega),
      List.drop_of_length_le (by omega)]
    exact ⟨rfl, rfl⟩

theorem mergeFrom_eq {n width : Nat} (hwidth : 0 < width) {lo : Nat}
    {positions buffer : List Nat} (hcmp : Decides cmp less positions)
    (hlength : positions.length = n) (hbuffer : buffer.length = n) :
    ∃ buffer' : List Nat, buffer'.length = n ∧
      mergeFrom cmp n width hwidth lo positions buffer =
        .ok (positions.take lo ++ mergePass less width (positions.drop lo), buffer') := by
  induction hn : n - lo using Nat.strong_induction_on generalizing lo positions buffer with
  | _ m ih =>
      by_cases hlo : lo < n - width
      swap
      · refine ⟨buffer, hbuffer, ?_⟩
        have hshort : (positions.drop lo).length ≤ width := by
          rw [List.length_drop]
          omega
        rw [mergeFrom, if_neg hlo, mergePass, if_pos (.inr hshort), List.take_append_drop]
      obtain ⟨buffer', hbuffer', hat⟩ :=
        @mergeAt_eq cmp less n width lo _ _ hcmp hlength hbuffer (by omega)
      have hlength' : (overwrite positions lo (mergedAt less width lo positions)).length = n := by
        rw [length_overwrite (by rw [length_mergedAt]; omega), hlength]
      obtain ⟨buffer'', hbuffer'', hrest⟩ := ih (n - (lo + 2 * width)) (by omega)
        (hcmp.mono fun p => mem_of_mem_overwrite) hlength' hbuffer' rfl
      refine ⟨buffer'', hbuffer'', ?_⟩
      rw [mergeFrom, if_pos hlo, hat]
      change mergeFrom cmp n width hwidth (lo + 2 * width) _ buffer' = _
      rw [hrest]
      have hlong : ¬(width = 0 ∨ (positions.drop lo).length ≤ width) := by
        rw [List.length_drop]
        omega
      obtain ⟨htake, hdrop⟩ := @split_overwrite less width lo positions (by omega)
      rw [mergePass.eq_def less width (positions.drop lo), if_neg hlong, htake, hdrop,
        List.append_assoc]
      simp only [mergedAt, List.drop_drop]

theorem mergeWidths_eq {n width : Nat} (hwidth : 0 < width) {positions buffer : List Nat}
    (hcmp : Decides cmp less positions) (hlength : positions.length = n)
    (hbuffer : buffer.length = n) : mergeWidths cmp n width hwidth positions buffer =
      .ok (mergePasses less width positions) := by
  induction width, positions using mergePasses.induct less generalizing buffer with
  | case1 width positions hlong ih =>
      obtain ⟨buffer', hbuffer', hfrom⟩ := @mergeFrom_eq cmp less n width hwidth 0 _ _ hcmp
        hlength hbuffer
      rw [List.take_zero, List.nil_append, List.drop_zero] at hfrom
      have hperm := mergePass_perm less width positions
      have hrest := ih (Nat.mul_pos two_pos hwidth) (hcmp.mono fun p => hperm.mem_iff.mp)
        (hperm.length_eq.trans hlength) hbuffer'
      rw [mergeWidths, if_pos (by omega), hfrom, mergePasses, if_pos hlong, ← hrest]
      change mergeWidths cmp n (width * 2) _ _ buffer' = _
      simp only [Nat.mul_comm width 2]
  | case2 width positions hstop =>
      rw [mergeWidths, if_neg (by omega), mergePasses, if_neg hstop]

end Sorting

/-! ## What is sorted -/

variable {tz : TimeZone} {order : List SortSpecification} {K : Set (List Value)}

theorem sortPositions_eq {keys : List (List Value)} (hK : Comparable tz order K)
    (hkeys : ∀ key ∈ keys, key ∈ K) : sortPositions tz order keys =
      .ok (sortedPositions (sortKeyLess tz order) keys) := by
  refine mergeWidths_eq one_pos (fun p hp q hq => ?_) List.length_range List.length_replicate
  have hp := List.mem_range.mp hp
  have hq := List.mem_range.mp hq
  obtain ⟨c, hc⟩ := hK _ (hkeys _ (List.getElem_mem hp)) _ (hkeys _ (List.getElem_mem hq))
  refine ⟨c, ?_, ?_⟩
  · rw [cmpAt, readIndex_of_lt hp, readIndex_of_lt hq]
    exact hc
  · rw [lessAt_of_lt hp hq, sortKeyLess, hc]
    simp

section Rows

variable {Row Session : Type} {compiled : List (Row → StateT Session (Except Failure) Value)}
variable {rows : List Row} {s s' : Session} {keys : List (List Value)}

theorem length_evaluateKeys (h : evaluateKeys compiled rows s = .ok (keys, s')) :
    keys.length = rows.length := by
  unfold evaluateKeys at h
  induction rows generalizing s keys with
  | nil =>
      rw [List.mapM_nil] at h
      cases h
      rfl
  | cons row rows ih =>
      rw [List.mapM_cons] at h
      obtain ⟨⟨key, s1⟩, -, h⟩ := ok_of_bind h
      obtain ⟨⟨rest, s2⟩, hrest, h⟩ := ok_of_bind h
      cases h
      rw [List.length_cons, List.length_cons, ih hrest]

theorem exists_mapM_readIndex {positions : List Nat} (h : ∀ p ∈ positions, p < rows.length) :
    ∃ result, positions.mapM (readIndex rows) = .ok result ∧
      List.Forall₂ (fun p row => rows[p]? = some row) positions result := by
  induction positions with
  | nil => exact ⟨[], rfl, .nil⟩
  | cons p positions ih =>
      obtain ⟨result, hresult, hrows⟩ := ih fun q hq => h q (List.mem_cons_of_mem p hq)
      have hp := h p (by simp)
      refine ⟨rows[p] :: result, ?_, .cons (List.getElem?_eq_getElem hp) hrows⟩
      rw [List.mapM_cons, readIndex_of_lt hp, hresult]
      rfl

theorem sortedPositions_of_short {κ : Type} {less : κ → κ → Bool} {keys : List κ}
    (h : keys.length < 2) : sortedPositions less keys = List.range keys.length := by
  rw [sortedPositions, mergePasses, if_neg]
  rw [List.length_range]
  omega

theorem forall₂_range (rows : List Row) :
    List.Forall₂ (fun p row => rows[p]? = some row) (List.range rows.length) rows := by
  refine List.forall₂_iff_get.mpr ⟨List.length_range, fun i hi hrow => ?_⟩
  simp at hrow ⊢

/-- The result is the rows at the sorted positions. -/
theorem exists_execute (hK : Comparable tz order K) (hkeys : ∀ key ∈ keys, key ∈ K)
    (h : evaluateKeys compiled rows s = .ok (keys, s')) :
    ∃ result s'', execute tz order compiled rows s = .ok (result, s'') ∧ (s'' = s ∨ s'' = s') ∧
      List.Forall₂ (fun p row => rows[p]? = some row)
        (sortedPositions (sortKeyLess tz order) keys) result := by
  have hlength := length_evaluateKeys h
  unfold execute
  split_ifs with hshort
  · refine ⟨rows, s, rfl, .inl rfl, ?_⟩
    rw [sortedPositions_of_short (by omega), hlength]
    exact forall₂_range rows
  · obtain ⟨result, hresult, hrows⟩ := @exists_mapM_readIndex Row rows
      (sortedPositions (sortKeyLess tz order) keys) fun p hp => by
        rw [sortedPositions, (mergePasses_perm _ _ _).mem_iff, List.mem_range] at hp
        omega
    refine ⟨result, s', ?_, .inr rfl, hrows⟩
    change (evaluateKeys compiled rows s >>= _) = _
    rw [h]
    change (sortPositions tz order keys >>= _) >>= _ = _
    rw [sortPositions_eq hK hkeys]
    change (List.mapM (readIndex rows) _ >>= _) = _
    rw [hresult]
    rfl

end Rows

/-- The rows are sorted, whatever they are and their keys are evaluated from. -/
def Sorts (tz : TimeZone) (order : List SortSpecification) (K : Set (List Value)) : Prop :=
  ∀ {Row Session : Type} (compiled : List (Row → StateT Session (Except Failure) Value))
    (rows : List Row) (s s' : Session) (keys : List (List Value)),
    evaluateKeys compiled rows s = .ok (keys, s') → (∀ key ∈ keys, key ∈ K) →
    ∃ positions result s'', execute tz order compiled rows s = .ok (result, s'') ∧
      IsStableSort (sortKeyLess tz order) keys positions ∧
      List.Forall₂ (fun p row => rows[p]? = some row) positions result

theorem sorts_of_negTransitive (hK : Comparable tz order K)
    (htrans : NegTransitive (sortKeyLess tz order) K) : Sorts tz order K := by
  intro Row Session compiled rows s s' keys heval hkeys
  obtain ⟨result, s'', hexecute, -, hrows⟩ := exists_execute hK hkeys heval
  exact ⟨_, result, s'', hexecute,
    isStableSort_sortedPositions (asymmetric_sortKeyLess hK) htrans hkeys, hrows⟩

/-! ## Keys that are not in order -/

/-- The values of rows that are their keys, each with its position. -/
def keyColumns (n : Nat) : List (List Value × Nat → StateT Unit (Except Failure) Value) :=
  (List.range n).map fun i row => pure (row.1.getD i (Value.null { typ := .integer }))

theorem mapM_eq_pure {α β Session : Type} {f : α → β}
    {g : α → StateT Session (Except Failure) β} {l : List α} (h : ∀ a ∈ l, g a = pure (f a)) :
    l.mapM g = pure (l.map f) := by
  induction l with
  | nil => rfl
  | cons a l ih =>
      rw [List.mapM_cons, h a (by simp), ih fun b hb => h b (List.mem_cons_of_mem a hb)]
      rfl

theorem evaluateKeys_zipIdx {keys : List (List Value)} {n : Nat}
    (h : ∀ key ∈ keys, key.length = n) :
    evaluateKeys (keyColumns n) keys.zipIdx () = .ok (keys, ()) := by
  have hrow : ∀ row ∈ keys.zipIdx, (keyColumns n).mapM (fun e => e row) = pure row.1 := by
    intro row hrow
    have hn : row.1.length = n := h _ (List.fst_mem_of_mem_zipIdx hrow)
    have hvalues : row.1 =
        (List.range n).map fun i => row.1.getD i (Value.null { typ := .integer }) := by
      refine List.ext_getElem (by simp [hn]) fun i hi _ => ?_
      simp [hi]
    rw [keyColumns, List.mapM_map]
    refine (mapM_eq_pure fun i _ => rfl).trans ?_
    rw [← hvalues]
  unfold evaluateKeys
  rw [mapM_eq_pure hrow, List.zipIdx_map_fst]
  rfl

/-- Two rows are only sorted if their keys can be compared. -/
theorem exists_sortKeysCmp {Row Session : Type}
    {compiled : List (Row → StateT Session (Except Failure) Value)} {rows : List Row}
    {s s' : Session} {a b : List Value} {result : List Row × Session}
    (heval : evaluateKeys compiled rows s = .ok ([b, a], s'))
    (h : execute tz order compiled rows s = .ok result) :
    ∃ cmp, sortKeysCmp tz a b order = .ok cmp := by
  have hlong : ¬rows.length < 2 := by
    rw [← length_evaluateKeys heval]
    simp
  rw [execute, if_neg hlong] at h
  change (evaluateKeys compiled rows s >>= _) = _ at h
  rw [heval] at h
  obtain ⟨_, hkeys', hexecute⟩ := ok_of_bind h
  cases hkeys'
  obtain ⟨⟨ps, s1⟩, hpositions, -⟩ := ok_of_bind hexecute
  cases hcmp : sortKeysCmp tz a b order with
  | ok cmp => exact ⟨cmp, rfl⟩
  | error e =>
      have hat : cmpAt tz order [b, a] 1 0 = .error e := hcmp
      have herror : sortPositions tz order [b, a] = .error e := by
        rw [sortPositions, mergeWidths, if_pos (by simp), mergeFrom, if_pos (by simp), mergeAt,
          mergeInto, mergeBoth, if_pos (by simp)]
        change (((((cmpAt tz order [b, a] 1 0 >>= _) >>= _) >>= _) >>= _) >>= _) = _
        rw [hat]
        rfl
      change (sortPositions tz order [b, a] >>= _) = _ at hpositions
      rw [herror] at hpositions
      cases hpositions

theorem comparable_of_sorts (hlength : ∀ key ∈ K, key.length = order.length)
    (h : Sorts tz order K) : Comparable tz order K := by
  intro a ha b hb
  have hkeys : ∀ key ∈ [b, a], key ∈ K := by simp [ha, hb]
  have heval := evaluateKeys_zipIdx fun key hkey => hlength key (hkeys key hkey)
  obtain ⟨positions, result, s, hexecute, -⟩ := h _ _ _ _ _ heval hkeys
  exact exists_sortKeysCmp heval hexecute

theorem negTransitive_of_sorts (hlength : ∀ key ∈ K, key.length = order.length)
    (h : Sorts tz order K) : NegTransitive (sortKeyLess tz order) K := by
  have hK := comparable_of_sorts hlength h
  refine (isStableSort_iff (asymmetric_sortKeyLess hK)).mp fun keys hkeys => ?_
  have heval := evaluateKeys_zipIdx fun key hkey => hlength key (hkeys key hkey)
  obtain ⟨positions, result, s, hexecute, hstable, hrows⟩ := h _ _ _ _ _ heval hkeys
  obtain ⟨result', s', hexecute', -, hrows'⟩ := exists_execute hK hkeys heval
  -- The rows are distinct, so these are the only positions that they can come from.
  have hposition : ∀ (positions : List Nat) (result : List (List Value × Nat)),
      List.Forall₂ (fun p row => keys.zipIdx[p]? = some row) positions result →
      positions = result.map Prod.snd := by
    intro positions result hrows
    induction hrows with
    | nil => rfl
    | cons hrow _ ih =>
        rw [List.getElem?_zipIdx] at hrow
        obtain ⟨key, -, rfl⟩ := Option.map_eq_some_iff.mp hrow
        rw [List.map_cons, ← ih, Nat.zero_add]
  have hresult : result = result' := by
    have hok := hexecute.symm.trans hexecute'
    injection hok with hok
    injection hok
  rw [hposition _ _ hrows', ← hresult, ← hposition _ _ hrows]
  exact hstable

/-- Every list of rows is sorted if and only if the comparison of its sort keys is transitive. -/
theorem sorts_iff (hlength : ∀ key ∈ K, key.length = order.length) :
    Sorts tz order K ↔ Comparable tz order K ∧ NegTransitive (sortKeyLess tz order) K :=
  ⟨fun h => ⟨comparable_of_sorts hlength h, negTransitive_of_sorts hlength h⟩,
    fun h => sorts_of_negTransitive h.1 h.2⟩

theorem length_of_mem_orderedKeys {types : List DataType} {key : List Value}
    (h : key ∈ OrderedKeys types) : key.length = types.length :=
  (List.Forall₂.length_eq h).symm

/-- `ORDER BY a, b DESC` -/
theorem sorts_iff_types : Sorts noTimeZone [⟨true⟩, ⟨false⟩]
    (OrderedKeys [{ typ := .varchar, size := 10 }, { typ := .doublePrecision }]) :=
  (sorts_iff fun _ hkey => length_of_mem_orderedKeys hkey).mpr
    ⟨comparable_orderedKeys rfl, negTransitive_orderedKeys rfl⟩

/-- A `DOUBLE PRECISION` -/
def doubleValue (x : F64) : Value :=
  ⟨{ typ := .doublePrecision }, some (.f64 x), fun _ hc => Option.some.inj hc ▸ .inl rfl⟩

/-- `3`, NaN, NaN, `1` and `1` -/
def nanKeys : List (List Value) :=
  let key (x : F64) := [doubleValue x]
  [key (.ofInt 3), key (.nan _), key (.nan _), key (.ofInt 1), key (.ofInt 1)]

/-- The last `1` is put before the other one, and before `3`, which stays before it. -/
theorem not_sorts_nan :
    execute noTimeZone [⟨true⟩] (keyColumns 1) nanKeys.zipIdx () =
        .ok ([4, 0, 1, 2, 3].filterMap (nanKeys.zipIdx[·]?), ()) ∧
      ¬IsStableSort (sortKeyLess noTimeZone [⟨true⟩]) nanKeys [4, 0, 1, 2, 3] := by
  refine ⟨by decide +kernel, fun h => ?_⟩
  have hequal : lessAt (sortKeyLess noTimeZone [⟨true⟩]) nanKeys 4 3 = false ∧
      lessAt (sortKeyLess noTimeZone [⟨true⟩]) nanKeys 3 4 = false := by
    decide +kernel
  have hbefore := (List.pairwise_cons.mp h.stable).1 3 (by simp)
  exact absurd (hbefore hequal.1 hequal.2) (by decide)

end OrderOperation

end Vsql
