import Mathlib.Algebra.Order.Ring.Nat
import Mathlib.Data.List.GetD

/-!
# Byte files under positional writes

A file is a list of bytes.  Reading past its end gives zeros, and a write past
its end fills the gap with zeros, as it does on a POSIX file.  The main result,
`replay_prefix`, is the reason a redo log works: however much of a list of
edits has already reached the file, making all of them again ends in the file
that making them once would have given.
-/

namespace Vsql.Foundation

abbrev Bytes := List UInt8

namespace ByteFile

def byteAt (file : Bytes) (x : Nat) : UInt8 := file.getD x 0

def resize (file : Bytes) (n : Nat) : Bytes :=
  file.take n ++ List.replicate (n - file.length) 0

def writeByte (file : Bytes) (x : Nat) (b : UInt8) : Bytes :=
  (file ++ List.replicate (x + 1 - file.length) 0).set x b

@[simp] theorem length_resize (file : Bytes) (n : Nat) :
    (resize file n).length = n := by
  simp [resize]
  omega

@[simp] theorem length_writeByte (file : Bytes) (x : Nat) (b : UInt8) :
    (writeByte file x b).length = max file.length (x + 1) := by
  simp [writeByte]
  omega

theorem byteAt_of_length_le {file : Bytes} {x : Nat} (h : file.length ≤ x) :
    byteAt file x = 0 :=
  List.getD_eq_default _ _ h

theorem byteAt_eq_getElem {file : Bytes} {x : Nat} (h : x < file.length) :
    byteAt file x = file[x] := by
  simp [byteAt, h]

theorem byteAt_append (file tail : Bytes) (x : Nat) :
    byteAt (file ++ tail) x =
      if x < file.length then byteAt file x else byteAt tail (x - file.length) := by
  split
  · next h => exact List.getD_append _ _ _ _ h
  · next h => exact List.getD_append_right _ _ _ _ (by omega)

theorem byteAt_replicate_zero (n x : Nat) :
    byteAt (List.replicate n 0) x = 0 := by
  by_cases h : x < n
  · simp [byteAt, h]
  · exact byteAt_of_length_le (by simpa using h)

theorem byteAt_resize (file : Bytes) (n x : Nat) :
    byteAt (resize file n) x = if x < n then byteAt file x else 0 := by
  by_cases hn : x < n
  · rw [resize, byteAt_append, byteAt_replicate_zero, if_pos hn]
    by_cases hx : x < file.length
    · have hmin : x < (file.take n).length := by simp; omega
      rw [if_pos hmin, byteAt_eq_getElem hmin, byteAt_eq_getElem hx,
        List.getElem_take]
    · have hmin : ¬x < (file.take n).length := by simp; omega
      rw [if_neg hmin, byteAt_of_length_le (by omega)]
  · rw [if_neg hn]
    exact byteAt_of_length_le (by simpa using hn)

theorem byteAt_writeByte (file : Bytes) (x y : Nat) (b : UInt8) :
    byteAt (writeByte file x b) y = if y = x then b else byteAt file y := by
  have pad : ∀ y, byteAt (file ++ List.replicate (x + 1 - file.length) 0) y =
      byteAt file y := by
    intro y
    rw [byteAt_append, byteAt_replicate_zero]
    split
    · rfl
    · next h => exact (byteAt_of_length_le (by omega)).symm
  split
  · next h =>
      subst h
      have hlen : y < (writeByte file y b).length := by
        rw [length_writeByte]
        omega
      rw [byteAt_eq_getElem hlen]
      simp [writeByte]
  · next h =>
      rw [← pad y]
      have hset : ∀ l : Bytes, byteAt (l.set x b) y = byteAt l y := by
        intro l
        simp [byteAt, List.getD_eq_getElem?_getD,
          List.getElem?_set_ne (Ne.symm h)]
      exact hset _

/-- Files of one length that agree byte for byte are the same file. -/
theorem ext_byteAt {file other : Bytes} (hlength : file.length = other.length)
    (hbytes : ∀ x, x < file.length → byteAt file x = byteAt other x) :
    file = other := by
  apply List.ext_getElem hlength
  intro x hx hy
  have h := hbytes x hx
  rwa [byteAt_eq_getElem hx, byteAt_eq_getElem hy] at h

/-! ## Edits -/

/-- The smallest changes a file system makes to a file. -/
inductive Edit where
  | byte (x : Nat) (b : UInt8)
  | resize (n : Nat)
  deriving DecidableEq, Repr

def Edit.apply (file : Bytes) : Edit → Bytes
  | .byte x b => writeByte file x b
  | .resize n => ByteFile.resize file n

def applyAll (file : Bytes) (edits : List Edit) : Bytes :=
  edits.foldl Edit.apply file

/-- The edits of writing `data` at `x`, one byte after the other. -/
def writeEdits (x : Nat) : Bytes → List Edit
  | [] => []
  | b :: data => .byte x b :: writeEdits (x + 1) data

@[simp] theorem applyAll_nil (file : Bytes) : applyAll file [] = file := rfl

@[simp] theorem applyAll_cons (file : Bytes) (edit : Edit) (edits : List Edit) :
    applyAll file (edit :: edits) = applyAll (edit.apply file) edits := rfl

theorem applyAll_append (file : Bytes) (first second : List Edit) :
    applyAll file (first ++ second) = applyAll (applyAll file first) second :=
  List.foldl_append

@[simp] theorem length_writeEdits (x : Nat) (data : Bytes) :
    (writeEdits x data).length = data.length := by
  induction data generalizing x with
  | nil => rfl
  | cons b data ih => simp [writeEdits, ih]

/-- The byte that an edit puts at `x`, if it writes there. -/
def Edit.byteFor (x : Nat) : Edit → Option UInt8
  | .byte y b => if y = x then some b else none
  | .resize _ => none

/-- The byte that the last write to `x` leaves there, if one writes to `x`. -/
def lastWrite : List Edit → Nat → Option UInt8
  | [], _ => none
  | edit :: edits, x => (lastWrite edits x).or (edit.byteFor x)

theorem lastWrite_append (first second : List Edit) (x : Nat) :
    lastWrite (first ++ second) x =
      (lastWrite second x).or (lastWrite first x) := by
  induction first with
  | nil => simp [lastWrite]
  | cons edit first ih => simp [lastWrite, ih, Option.or_assoc]

theorem lastWrite_take {edits : List Edit} {x : Nat} (k : Nat)
    (h : lastWrite edits x = none) : lastWrite (edits.take k) x = none := by
  rw [← List.take_append_drop k edits, lastWrite_append] at h
  exact (Option.or_eq_none_iff.mp h).2

theorem lastWrite_writeEdits (start : Nat) (data : Bytes) (x : Nat) :
    lastWrite (writeEdits start data) x =
      if start ≤ x then data[x - start]? else none := by
  induction data generalizing start with
  | nil => simp [writeEdits, lastWrite]
  | cons b data ih =>
      rw [writeEdits, lastWrite, ih, Edit.byteFor]
      rcases Nat.lt_trichotomy x start with hlt | heq | hgt
      · simp [Nat.not_le.mpr hlt, show ¬start + 1 ≤ x by omega,
          show ¬start = x by omega]
      · subst heq
        simp [show ¬x + 1 ≤ x by omega]
      · have hsub : x - start = (x - (start + 1)) + 1 := by omega
        simp [show start + 1 ≤ x by omega, show start ≤ x by omega,
          show ¬start = x by omega, hsub]

/-- Byte writes that stay below `limit`. -/
def WritesBelow (limit : Nat) (edits : List Edit) : Prop :=
  ∀ edit ∈ edits, ∃ x b, edit = .byte x b ∧ x < limit

theorem writesBelow_append {limit : Nat} {first second : List Edit} :
    WritesBelow limit (first ++ second) ↔
      WritesBelow limit first ∧ WritesBelow limit second := by
  simp only [WritesBelow, List.mem_append]
  exact ⟨fun h => ⟨fun e he => h e (.inl he), fun e he => h e (.inr he)⟩,
    fun h e he => he.elim (h.1 e) (h.2 e)⟩

theorem writesBelow_writeEdits {limit start : Nat} {data : Bytes}
    (h : start + data.length ≤ limit) :
    WritesBelow limit (writeEdits start data) := by
  induction data generalizing start with
  | nil => simp [WritesBelow, writeEdits]
  | cons b data ih =>
      simp only [List.length_cons] at h
      intro edit hedit
      rcases List.mem_cons.mp hedit with rfl | hedit
      · exact ⟨start, b, rfl, by omega⟩
      · exact ih (by omega) edit hedit

theorem byteAt_applyAll {limit : Nat} {edits : List Edit}
    (hbelow : WritesBelow limit edits) (file : Bytes) (x : Nat) :
    byteAt (applyAll file edits) x =
      (lastWrite edits x).getD (byteAt file x) := by
  induction edits generalizing file with
  | nil => rfl
  | cons edit edits ih =>
      have hrest : WritesBelow limit edits :=
        fun e he => hbelow e (List.mem_cons_of_mem _ he)
      obtain ⟨y, b, rfl, -⟩ := hbelow _ (List.mem_cons_self ..)
      rw [applyAll_cons, ih hrest, Edit.apply, byteAt_writeByte, lastWrite,
        Edit.byteFor]
      by_cases h : x = y
      · subst h
        cases lastWrite edits x <;> simp
      · cases lastWrite edits x <;> simp [h, Ne.symm h]

/-! ## Redo -/

/-- Byte writes below `limit`, and then a resize to `limit`. -/
def redoEdits (limit : Nat) (writes : List Edit) : List Edit :=
  writes ++ [.resize limit]

theorem length_applyAll_redo (limit : Nat) (writes : List Edit) (file : Bytes) :
    (applyAll file (redoEdits limit writes)).length = limit := by
  simp [redoEdits, applyAll_append, Edit.apply]

theorem byteAt_applyAll_redo {limit : Nat} {writes : List Edit}
    (hbelow : WritesBelow limit writes) (file : Bytes) {x : Nat}
    (hx : x < limit) :
    byteAt (applyAll file (redoEdits limit writes)) x =
      (lastWrite writes x).getD (byteAt file x) := by
  rw [redoEdits, applyAll_append, applyAll_cons, applyAll_nil, Edit.apply,
    byteAt_resize, if_pos hx, byteAt_applyAll hbelow]

/-- Where the edits do not write, stopping after any number of them leaves the
file as it was, up to `limit`. -/
private theorem byteAt_applyAll_take {limit : Nat} {writes : List Edit}
    (hbelow : WritesBelow limit writes) (file : Bytes) (k : Nat) {x : Nat}
    (hx : x < limit) (hnone : lastWrite writes x = none) :
    byteAt (applyAll file ((redoEdits limit writes).take k)) x =
      byteAt file x := by
  have hwrites : ∀ j, byteAt (applyAll file (writes.take j)) x =
      byteAt file x := by
    intro j
    have hj : WritesBelow limit (writes.take j) :=
      fun e he => hbelow e (List.mem_of_mem_take he)
    rw [byteAt_applyAll hj, lastWrite_take j hnone, Option.getD_none]
  rw [redoEdits, List.take_append, applyAll_append]
  cases hk : k - writes.length with
  | zero => simpa using hwrites k
  | succ n =>
      simp only [List.take_succ_cons, List.take_nil, applyAll_cons,
        applyAll_nil, Edit.apply]
      rw [byteAt_resize, if_pos hx]
      exact hwrites k

/-- Redo is insensitive to how much of itself was already done. -/
theorem replay_prefix {limit : Nat} {writes : List Edit}
    (hbelow : WritesBelow limit writes) (file : Bytes) (k : Nat) :
    applyAll (applyAll file ((redoEdits limit writes).take k))
        (redoEdits limit writes) =
      applyAll file (redoEdits limit writes) := by
  apply ext_byteAt
  · rw [length_applyAll_redo, length_applyAll_redo]
  · intro x hx
    rw [length_applyAll_redo] at hx
    rw [byteAt_applyAll_redo hbelow _ hx, byteAt_applyAll_redo hbelow _ hx]
    cases h : lastWrite writes x with
    | some b => rfl
    | none => exact byteAt_applyAll_take hbelow file k hx h

/-! ## Files of equal blocks -/

theorem length_flatten_blocks {size : Nat} {blocks : List Bytes}
    (hsize : ∀ block ∈ blocks, block.length = size) :
    blocks.flatten.length = size * blocks.length := by
  induction blocks with
  | nil => rfl
  | cons block blocks ih =>
      rw [List.flatten_cons, List.length_append, hsize block (by simp),
        ih fun b hb => hsize b (List.mem_cons_of_mem _ hb), List.length_cons,
        Nat.mul_succ]
      omega

theorem byteAt_flatten_blocks {size : Nat} {blocks : List Bytes}
    (hsize : ∀ block ∈ blocks, block.length = size) (n i : Nat)
    (hi : i < size) :
    byteAt blocks.flatten (size * n + i) =
      byteAt ((blocks[n]?).getD []) i := by
  induction blocks generalizing n with
  | nil => simp [byteAt]
  | cons block blocks ih =>
      have hblock := hsize block (by simp)
      rw [List.flatten_cons, byteAt_append, hblock]
      cases n with
      | zero => simp [hi]
      | succ n =>
          have hge : ¬size * (n + 1) + i < size := by
            rw [Nat.mul_succ]
            omega
          have hsub : size * (n + 1) + i - size = size * n + i := by
            rw [Nat.mul_succ]
            omega
          rw [if_neg hge, hsub,
            ih fun b hb => hsize b (List.mem_cons_of_mem _ hb)]
          simp

end ByteFile
end Vsql.Foundation
