import Vsql.Foundation.Fallible
import Vsql.Wal.Log

/-!
# Reading a log with 32-bit integers

The lengths that are added come from the log, and an `int` wraps around.  An index or a slice
outside of the log is a panic.
-/

namespace Vsql

open Foundation ByteFile

/-! ## Integers and bytes -/

/-- The `int` that a sum wraps around to. -/
def int32 (x : Int) : Int := Int.bmod x 4294967296

theorem int32_of_lt {x : Int} (h : 0 ≤ x) (hx : x < 2147483648) : int32 x = x := by
  rw [int32, Int.bmod_def, Int.emod_eq_of_lt h (by omega), if_pos (by omega)]

theorem int32_of_le {x : Int} (h : 2147483648 ≤ x) (hx : x < 4294967296) :
    int32 x = x - 4294967296 := by
  rw [int32, Int.bmod_def, Int.emod_eq_of_lt (by omega) (by omega), if_neg (by omega)]
  rfl

/-- The message of a panic, or the byte. -/
def byteIndex (data : Bytes) (i : Int) : Except String UInt8 :=
  if 0 ≤ i ∧ i < data.length then .ok (byteAt data i.toNat)
  else .error "index out of range"

def byteSlice (data : Bytes) (first last : Int) : Except String Bytes :=
  if 0 ≤ first ∧ first ≤ last ∧ last ≤ data.length then
    .ok ((data.drop first.toNat).take (last - first).toNat)
  else .error "slice index out of range"

def bigEndianU32At (data : Bytes) (o : Int) : Except String Nat := do
  let first ← byteIndex data o
  let last ← byteIndex data (int32 (o + 3))
  let second ← byteIndex data (int32 (o + 1))
  let third ← byteIndex data (int32 (o + 2))
  pure (ofBigEndian [first, second, third, last])

/-! ## Reading -/

structure LogFrame where
  kind : UInt8
  number : Int
  data : Bytes
  checksum : UInt32
  next : Int

structure WalCommit where
  pageSize : Int
  pages : OrderedMap Int Bytes
  headerBytes : Bytes
  totalPages : Int
  deriving DecidableEq

section

variable (crc : Bytes → UInt32) (data : Bytes)

/-- The frame whose data is from `start` to `next`, unless it has the wrong checksum. -/
def readFrameData (checksum : UInt32) (offset start next : Int) (kind : UInt8) (number : Int)
    (frameChecksum : UInt32) : Except String (Option LogFrame) := do
  let frameData ← byteSlice data start next
  let frameHeader ← byteSlice data offset (int32 (offset + 12))
  if walChecksum crc checksum frameHeader frameData ≠ frameChecksum then pure none
  else pure (some ⟨kind, number, frameData, frameChecksum, next⟩)

/-- The frame at the offset, unless it isn't complete or has the wrong checksum. -/
def readFrame (checksum : UInt32) (offset : Int) : Except String (Option LogFrame) := do
  let kind ← byteIndex data offset
  let number ← bigEndianU32At data (int32 (offset + 4))
  let len ← bigEndianU32At data (int32 (offset + 8))
  let frameChecksum ← bigEndianU32At data (int32 (offset + 12))
  let start := int32 (offset + walFrameHeaderSize)
  let next := int32 (start + toInt32 len)
  if toInt32 len < 0 ∨ next > data.length then pure none
  else
    readFrameData crc data checksum offset start next kind (toInt32 number)
      (UInt32.ofNat frameChecksum)

/-- The loop over the frames, or nothing if there are more than `fuel` of them. -/
def readFrames (pageSize : Int) : (fuel : Nat) → UInt32 → Int → OrderedMap Int Bytes →
    Option WalCommit → Option (Except Failure (Option WalCommit))
  | 0, _, _, _, _ => none
  | fuel + 1, checksum, offset, pages, commit =>
      if int32 (offset + walFrameHeaderSize) ≤ data.length then
        match readFrame crc data checksum offset with
        | .error message => some (.error (.panic message))
        | .ok none => some (.ok commit)
        | .ok (some frame) =>
            if frame.kind = walFramePage then
              readFrames pageSize fuel frame.checksum frame.next
                (pages.set frame.number frame.data) commit
            else if frame.kind = walFrameCommit then
              readFrames pageSize fuel frame.checksum frame.next pages
                (some ⟨pageSize, pages, frame.data, frame.number⟩)
            else some (.ok commit)
      else some (.ok commit)

/-- The header of a log that has one, with the right checksum. -/
def HasLogHeader : Prop :=
  walHeaderSize ≤ data.length ∧ data.take walMagic.length = walMagic ∧
    crc (((data.take walHeaderSize).set walStateOffset 0).take (walHeaderSize - 4)) =
      UInt32.ofNat (u32At ((data.take walHeaderSize).set walStateOffset 0) (walHeaderSize - 4))

instance instDecidableHasLogHeader : Decidable (HasLogHeader crc data) :=
  inferInstanceAs (Decidable (_ ∧ _ ∧ _))

def readLog (fuel : Nat) : Option (Except Failure (Option WalCommit)) :=
  if HasLogHeader crc data then
    readFrames crc data (toInt32 (u32At data 12)) fuel (UInt32.ofNat (u32At data 16))
      walHeaderSize .empty none
  else some (.ok none)

/-- A frame is at least as long as its header, so there are always enough rounds. -/
def walRead : Except Failure (Option WalCommit) :=
  (readLog crc data (data.length + 1)).getD (.ok none)

end

/-! ## Frames -/

/-- The frame at the front of the data: its header, its checksum, its data, and the rest. -/
def IsFrame (crc : Bytes → UInt32) (checksum : UInt32) (data : Bytes) (frame : WalFrame) : Prop :=
  ∃ fields sum, data = fields ++ (sum ++ (frame.data ++ frame.rest)) ∧ fields.length = 12 ∧
    sum.length = 4 ∧ byteAt fields 0 = frame.kind ∧ u32At fields 4 = frame.number ∧
    u32At fields 8 = frame.data.length ∧ UInt32.ofNat (u32At sum 0) = frame.checksum ∧
    walChecksum crc checksum fields frame.data = frame.checksum

def HasKind (frame : WalFrame) : Prop := frame.kind = walFramePage ∨ frame.kind = walFrameCommit

instance instDecidableHasKind (frame : WalFrame) : Decidable (HasKind frame) :=
  inferInstanceAs (Decidable (_ ∨ _))

/-- Frames one after the other, from a checksum to a checksum, and the rest. -/
inductive FrameChain (crc : Bytes → UInt32) :
    UInt32 → Bytes → List WalFrame → UInt32 → Bytes → Prop
  | nil {checksum : UInt32} {data : Bytes} : FrameChain crc checksum data [] checksum data
  | cons {checksum last : UInt32} {data rest : Bytes} {frame : WalFrame} {frames : List WalFrame}
      (h : IsFrame crc checksum data frame) (hkind : HasKind frame)
      (hs : FrameChain crc frame.checksum frame.rest frames last rest) :
      FrameChain crc checksum data (frame :: frames) last rest

/-- No frame comes after the ones of the chain. -/
def ChainEnds (crc : Bytes → UInt32) (last : UInt32) (rest : Bytes) : Prop :=
  ∀ frame, IsFrame crc last rest frame → ¬HasKind frame

/-- The data of the last frame that has the page. -/
def lastPage (frames : List WalFrame) (n : Int) : Option Bytes :=
  ((frames.filter fun f => decide (f.kind = walFramePage ∧ toInt32 f.number = n)).getLast?).map
    (·.data)

def LastCommit (pageSize : Int) (frames : List WalFrame) : Option WalCommit → Prop
  | none => ∀ f ∈ frames, f.kind ≠ walFrameCommit
  | some commit => ∃ before last after, frames = before ++ last :: after ∧
      last.kind = walFrameCommit ∧ (∀ f ∈ after, f.kind ≠ walFrameCommit) ∧
      commit.pageSize = pageSize ∧ commit.headerBytes = last.data ∧
      commit.totalPages = toInt32 last.number ∧ ∀ n, commit.pages.get? n = lastPage before n

/-- The last commit of the longest prefix of frames. -/
def HoldsCommit (crc : Bytes → UInt32) (data : Bytes) (commit : Option WalCommit) : Prop :=
  if HasLogHeader crc data then
    ∃ frames last rest, FrameChain crc (UInt32.ofNat (u32At data 16)) (data.drop walHeaderSize)
      frames last rest ∧ ChainEnds crc last rest ∧
        LastCommit (toInt32 (u32At data 12)) frames commit
  else commit = none

/-! ## Reading one frame -/

variable {crc : Bytes → UInt32} {data : Bytes} {checksum : UInt32} {o : Nat}

theorem byteIndex_of_lt {i : Int} (h : i = o) (ho : o < data.length) :
    byteIndex data i = .ok (byteAt data o) := by
  rw [byteIndex, if_pos ⟨by omega, by omega⟩, h]
  rfl

theorem bounds_of_byteIndex {i : Int} {b : UInt8} (h : byteIndex data i = .ok b) :
    0 ≤ i ∧ i < data.length := by
  unfold byteIndex at h
  split at h
  · assumption
  · cases h

theorem take_four (h : o + 4 ≤ data.length) : (data.drop o).take 4 =
    [byteAt data o, byteAt data (o + 1), byteAt data (o + 2), byteAt data (o + 3)] := by
  have hget : ∀ i < data.length, data.drop i = byteAt data i :: data.drop (i + 1) := by
    intro i hi
    rw [List.drop_eq_getElem_cons hi, byteAt, List.getD_eq_getElem _ _ hi]
  rw [hget o (by omega), hget (o + 1) (by omega), hget (o + 2) (by omega),
    hget (o + 3) (by omega)]
  rfl

theorem bigEndianU32At_eq (hlen : data.length < 2147483648) {i : Int} (hi : i = o)
    (h : o + 4 ≤ data.length) : bigEndianU32At data i = .ok (u32At data o) := by
  have hindex : ∀ k : Nat, k < 4 → byteIndex data (int32 (i + k)) = .ok (byteAt data (o + k)) := by
    intro k hk
    rw [int32_of_lt (by omega) (by omega)]
    exact byteIndex_of_lt (by omega) (by omega)
  have hfirst : byteIndex data i = .ok (byteAt data o) := byteIndex_of_lt hi (by omega)
  have h1 := hindex 1 (by omega)
  have h2 := hindex 2 (by omega)
  have h3 := hindex 3 (by omega)
  simp only [Nat.cast_ofNat, Int.natCast_one] at h1 h2 h3
  simp only [bigEndianU32At, hfirst, h1, h2, h3, u32At, take_four h]
  rfl

theorem u32At_lt (i : Nat) : u32At data i < 4294967296 := by
  have hlt := ofBigEndian_lt ((data.drop i).take 4)
  have hle := Nat.pow_le_pow_right (by omega : 0 < 256) (List.length_take_le 4 (data.drop i))
  exact hlt.trans_le hle

theorem u32At_drop (o i : Nat) : u32At (data.drop o) i = u32At data (o + i) := by
  rw [u32At, u32At, List.drop_drop]

theorem byteSlice_of_le {first last : Nat} {i j : Int} (hi : i = first) (hj : j = last)
    (h : first ≤ last) (hlast : last ≤ data.length) :
    byteSlice data i j = .ok ((data.drop first).take (last - first)) := by
  rw [byteSlice, if_pos ⟨by omega, by omega, by omega⟩]
  congr
  · omega
  · omega

/-- The sums of the frame at the offset, if it has a header, wrap around. -/
def WrapsAt (data : Bytes) (o : Nat) : Prop :=
  2147483648 ≤ o + 16 ∨ o + 16 ≤ data.length ∧ u32At data (o + 8) < 2147483648 ∧
    2147483648 ≤ o + 16 + u32At data (o + 8)

theorem readFrame_of_header (hlen : data.length < 2147483648) (ho : o + 16 ≤ data.length) :
    readFrame crc data checksum o =
      if toInt32 (u32At data (o + 8)) < 0 ∨
          int32 ((o + 16 : Nat) + toInt32 (u32At data (o + 8))) > data.length then .ok none
      else readFrameData crc data checksum o (o + 16 : Nat)
        (int32 ((o + 16 : Nat) + toInt32 (u32At data (o + 8)))) (byteAt data o)
        (toInt32 (u32At data (o + 4))) (UInt32.ofNat (u32At data (o + 12))) := by
  have hkind : byteIndex data o = .ok (byteAt data o) := byteIndex_of_lt rfl (by omega)
  have hadd : ∀ k : Nat, k ≤ 16 → int32 ((o : Int) + k) = (o + k : Nat) := by
    intro k hk
    rw [int32_of_lt (by omega) (by omega)]
    rfl
  have hfield : ∀ k : Nat, k ≤ 12 →
      bigEndianU32At data (int32 ((o : Int) + k)) = .ok (u32At data (o + k)) := by
    intro k hk
    exact bigEndianU32At_eq hlen (hadd k (by omega)) (by omega)
  have h4 := hfield 4 (by omega)
  have h8 := hfield 8 (by omega)
  have h12 := hfield 12 (by omega)
  have hstart := hadd 16 (by omega)
  simp only [Nat.cast_ofNat] at h4 h8 h12 hstart
  simp only [readFrame, hkind, h4, h8, h12, walFrameHeaderSize, Nat.cast_ofNat, hstart]
  rfl

theorem toInt32_of_le {n : Nat} (h : 2147483648 ≤ n) (hn : n < 4294967296) : toInt32 n < 0 := by
  unfold toInt32
  omega

theorem ok_bind {ε α β : Type} (a : α) (f : α → Except ε β) : (Except.ok a >>= f) = f a := rfl

theorem readFrameData_eq (hlen : data.length < 2147483648) {len : Nat}
    (hnext : o + 16 + len ≤ data.length) (kind : UInt8) (number : Int) (sum : UInt32) :
    readFrameData crc data checksum o (o + 16 : Nat) (o + 16 + len : Nat) kind number sum =
      .ok (if walChecksum crc checksum ((data.drop o).take 12) ((data.drop (o + 16)).take len) ≠ sum
        then none
        else some ⟨kind, number, (data.drop (o + 16)).take len, sum, (o + 16 + len : Nat)⟩) := by
  have hdata : byteSlice data (o + 16 : Nat) (o + 16 + len : Nat) =
      .ok ((data.drop (o + 16)).take len) := by
    rw [byteSlice_of_le rfl rfl (by omega) hnext, Nat.add_sub_cancel_left]
  have hheader : byteSlice data o (int32 (o + 12)) = .ok ((data.drop o).take 12) := by
    have hsum : int32 ((o : Int) + 12) = (o + 12 : Nat) := by
      rw [int32_of_lt (by omega) (by omega)]
      rfl
    rw [byteSlice_of_le rfl hsum (by omega) (by omega), Nat.add_sub_cancel_left]
  simp only [readFrameData, hdata, hheader, ok_bind]
  split <;> rfl

/-- A frame is read as it would be with integers of any size, unless a sum wraps around. -/
theorem readFrame_eq (hlen : data.length < 2147483648) (ho : o + 16 ≤ data.length)
    (hwrap : ¬WrapsAt data o) : readFrame crc data checksum o =
      .ok ((walNextFrame crc checksum (data.drop o)).map fun f =>
        ⟨f.kind, toInt32 f.number, f.data, f.checksum,
          (o + 16 + u32At data (o + 8) : Nat)⟩) := by
  have hbound : u32At data (o + 8) < 4294967296 := u32At_lt (o + 8)
  have hlong : ¬(data.drop o).length < walFrameHeaderSize := by
    rw [List.length_drop, walFrameHeaderSize]
    omega
  rw [readFrame_of_header hlen ho]
  simp only [walNextFrame, if_neg hlong, u32At_drop]
  by_cases hneg : 2147483648 ≤ u32At data (o + 8)
  · rw [if_pos (.inl (toInt32_of_le hneg hbound)), if_pos (.inl hneg)]
    rfl
  · have hnext : o + 16 + u32At data (o + 8) < 2147483648 := by
      by_contra! hle
      exact hwrap (.inr ⟨ho, by omega, hle⟩)
    have hint : toInt32 (u32At data (o + 8)) = u32At data (o + 8) :=
      toInt32_of_lt (not_le.mp hneg)
    have hsum : int32 ((o + 16 : Nat) + (u32At data (o + 8) : Int)) =
        (o + 16 + u32At data (o + 8) : Nat) := by
      rw [int32_of_lt (by omega) (by omega)]
      rfl
    rw [hint, hsum, List.drop_drop, List.length_drop, walFrameHeaderSize]
    by_cases hend : data.length < o + 16 + u32At data (o + 8)
    · rw [if_pos (.inr (by omega)), if_pos (.inr (by omega))]
      rfl
    · have hkind : byteAt (data.drop o) 0 = byteAt data o := by
        simp [byteAt, List.getD]
      rw [if_neg (by omega), if_neg (by omega), readFrameData_eq hlen (by omega), hkind]
      split <;> rfl

theorem readFrame_wraps (hlen : data.length < 2147483648) (ho : o ≤ data.length)
    (hwrap : WrapsAt data o) : ∃ message, readFrame crc data checksum o = .error message := by
  cases hread : readFrame crc data checksum o with
  | error message => exact ⟨message, rfl⟩
  | ok frame =>
      exfalso
      obtain hfar | ⟨hheader, hsmall, hnext⟩ := hwrap
      · -- The last byte of the header can't be indexed.
        obtain ⟨kind, hkind, hread⟩ := ok_of_bind hread
        obtain ⟨number, -, hread⟩ := ok_of_bind hread
        obtain ⟨len, -, hread⟩ := ok_of_bind hread
        obtain ⟨sum, hsum, -⟩ := ok_of_bind hread
        obtain ⟨first, hfirst, hsum⟩ := ok_of_bind hsum
        obtain ⟨last, hlast, -⟩ := ok_of_bind hsum
        have hfirst := bounds_of_byteIndex hfirst
        have hlast := bounds_of_byteIndex hlast
        obtain hlt | hle := lt_or_ge (o + 12) 2147483648
        · have hsum12 : int32 ((o : Int) + 12) = o + 12 := int32_of_lt (by omega) (by omega)
          rw [hsum12] at hlast
          obtain hlt' | hle' := lt_or_ge (o + 15) 2147483648
          · rw [int32_of_lt (by omega) (by omega)] at hlast
            omega
          · rw [int32_of_le (by omega) (by omega)] at hlast
            omega
        · have hsum12 : int32 ((o : Int) + 12) = o + 12 - 4294967296 :=
            int32_of_le (by omega) (by omega)
          omega
      · rw [readFrame_of_header hlen hheader, toInt32_of_lt hsmall,
          int32_of_le (by omega) (by omega), if_neg (by omega)] at hread
        obtain ⟨frameData, hslice, -⟩ := ok_of_bind hread
        unfold byteSlice at hslice
        rw [if_neg (by omega)] at hslice
        cases hslice

/-! ## What is read is a frame -/

theorem u32At_append_left {before after : Bytes} {i : Nat} (h : i + 4 ≤ before.length) :
    u32At (before ++ after) i = u32At before i := by
  rw [u32At, u32At, List.drop_append_of_le_length (by omega),
    List.take_append_of_le_length (by rw [List.length_drop]; omega)]

theorem u32At_append_right {before after : Bytes} {i : Nat} (h : i = before.length) :
    u32At (before ++ after) i = u32At after 0 := by
  rw [u32At, u32At, h, List.drop_left, List.drop_zero]

theorem isFrame_of_walNextFrame {frame : WalFrame}
    (h : walNextFrame crc checksum data = some frame) : IsFrame crc checksum data frame := by
  simp only [walNextFrame] at h
  split_ifs at h with hlong hlen hsum
  cases h
  rw [walFrameHeaderSize, not_lt] at hlong
  rw [walFrameHeaderSize, not_or, not_lt] at hlen
  have hfields : data = data.take 12 ++ data.drop 12 := (List.take_append_drop 12 data).symm
  have hsum' : data.drop 12 = (data.drop 12).take 4 ++ data.drop 16 := by
    have hsplit := (List.take_append_drop 4 (data.drop 12)).symm
    rwa [List.drop_drop] at hsplit
  have hlength : (data.take 12).length = 12 := by
    rw [List.length_take]
    omega
  have hfour : ((data.drop 12).take 4).length = 4 := by
    rw [List.length_take, List.length_drop]
    omega
  have hfield : ∀ i, i + 4 ≤ 12 → u32At (data.take 12) i = u32At data i := by
    intro i hi
    nth_rewrite 2 [hfields]
    exact (u32At_append_left (by omega)).symm
  refine ⟨data.take 12, (data.drop 12).take 4, ?_, hlength, hfour, ?_, hfield 4 (by omega), ?_, ?_,
    not_not.mp hsum⟩
  · simp only [walFrameHeaderSize, List.take_append_drop, ← hsum']
  · simp [byteAt, List.getD]
  · rw [hfield 8 (by omega), walFrameHeaderSize, List.length_take]
    omega
  · rw [u32At, List.drop_zero, List.take_take]
    rfl

theorem walNextFrame_of_isFrame {frame : WalFrame} (hdata : data.length < 2147483648)
    (h : IsFrame crc checksum data frame) : walNextFrame crc checksum data = some frame := by
  obtain ⟨fields, sum, rfl, hfields, hsum, hkind, hnumber, hlen, hcheck, hchain⟩ := h
  have hrest : (fields ++ (sum ++ (frame.data ++ frame.rest))).drop walFrameHeaderSize =
      frame.data ++ frame.rest := by
    rw [← List.append_assoc]
    exact List.drop_left' (by rw [List.length_append, walFrameHeaderSize]; omega)
  have hkind' : byteAt (fields ++ (sum ++ (frame.data ++ frame.rest))) 0 = frame.kind := by
    rw [← hkind, byteAt, byteAt, List.getD_append _ _ _ _ (by omega)]
  have hnumber' : u32At (fields ++ (sum ++ (frame.data ++ frame.rest))) 4 = frame.number := by
    rw [u32At_append_left (by omega), hnumber]
  have hlen' : u32At (fields ++ (sum ++ (frame.data ++ frame.rest))) 8 = frame.data.length := by
    rw [u32At_append_left (by omega), hlen]
  have hcheck' : UInt32.ofNat (u32At (fields ++ (sum ++ (frame.data ++ frame.rest))) 12) =
      frame.checksum := by
    rw [u32At_append_right hfields.symm, u32At_append_left (by omega), hcheck]
  have htake : (fields ++ (sum ++ (frame.data ++ frame.rest))).take 12 = fields :=
    List.take_left' hfields
  simp only [List.length_append] at hdata
  rw [walNextFrame_of_valid]
  · rw [hkind', hnumber', hrest, hlen', hcheck', List.take_left, List.drop_left]
  · simp only [List.length_append, walFrameHeaderSize]
    omega
  · rw [hlen', hrest, List.length_append]
    omega
  · rw [htake, hrest, hlen', List.take_left, hcheck', hchain]

/-- A frame is at least as long as its header, and has its data before the rest. -/
theorem IsFrame.length {frame : WalFrame} (h : IsFrame crc checksum data frame) :
    data.length = 16 + u32At data 8 + frame.rest.length := by
  obtain ⟨fields, sum, rfl, hfields, hsum, -, -, hlen, -, -⟩ := h
  rw [u32At_append_left (by omega), hlen]
  simp only [List.length_append]
  omega

theorem IsFrame.rest_eq {frame : WalFrame} (h : IsFrame crc checksum data frame) :
    frame.rest = data.drop (16 + u32At data 8) := by
  obtain ⟨fields, sum, rfl, hfields, hsum, -, -, hlen, -, -⟩ := h
  rw [u32At_append_left (by omega), hlen, ← List.append_assoc, ← List.append_assoc,
    List.drop_left' (by simp only [List.length_append]; omega)]

/-! ## The loop over the frames -/

/-- What a frame does to the pages and the last commit. -/
def replayFrame (pageSize : Int) (s : OrderedMap Int Bytes × Option WalCommit)
    (frame : WalFrame) : OrderedMap Int Bytes × Option WalCommit :=
  if frame.kind = walFramePage then (s.1.set (toInt32 frame.number) frame.data, s.2)
  else (s.1, some ⟨pageSize, s.1, frame.data, toInt32 frame.number⟩)

theorem isFrame_iff (hdata : data.length < 2147483648) {frame : WalFrame} :
    IsFrame crc checksum data frame ↔ walNextFrame crc checksum data = some frame :=
  ⟨walNextFrame_of_isFrame hdata, isFrame_of_walNextFrame⟩

theorem length_drop_lt (hlen : data.length < 2147483648) (o : Nat) :
    (data.drop o).length < 2147483648 := by
  rw [List.length_drop]
  omega

/-- A frame ends before a sum wraps around. -/
theorem not_wrapsAt_of_isFrame (hlen : data.length < 2147483648) {frame : WalFrame}
    (h : IsFrame crc checksum (data.drop o) frame) : ¬WrapsAt data o := by
  have hlength := h.length
  rw [List.length_drop, u32At_drop] at hlength
  rintro (hfar | ⟨-, -, hnext⟩) <;> omega

variable {pageSize : Int} {fuel : Nat} {pages : OrderedMap Int Bytes} {commit : Option WalCommit}

/-- One round of the loop, where no sum wraps around. -/
theorem readFrames_succ (hlen : data.length < 2147483648) (hwrap : ¬WrapsAt data o) :
    readFrames crc data pageSize (fuel + 1) checksum o pages commit =
      match walNextFrame crc checksum (data.drop o) with
      | none => some (.ok commit)
      | some frame =>
          if HasKind frame then
            readFrames crc data pageSize fuel frame.checksum
              (o + 16 + u32At data (o + 8) : Nat)
              (replayFrame pageSize (pages, commit) frame).1
              (replayFrame pageSize (pages, commit) frame).2
          else some (.ok commit) := by
  have hnear : o + 16 < 2147483648 := by
    by_contra! hfar
    exact hwrap (.inl hfar)
  have hsum : int32 ((o : Int) + walFrameHeaderSize) = (o + 16 : Nat) := by
    rw [walFrameHeaderSize, int32_of_lt (by omega) (by omega)]
    rfl
  rw [readFrames, hsum]
  by_cases ho : o + 16 ≤ data.length
  · rw [if_pos (by omega), readFrame_eq hlen ho hwrap]
    cases walNextFrame crc checksum (data.drop o) with
    | none => rfl
    | some frame =>
        simp only [Option.map_some, HasKind, replayFrame]
        by_cases hpage : frame.kind = walFramePage
        · simp only [hpage, if_true, true_or]
        · simp only [hpage, if_false, false_or]
  · rw [if_neg (by omega), walNextFrame_of_short]
    rw [List.length_drop, walFrameHeaderSize]
    omega

/-- One round of the loop, where a sum wraps around. -/
theorem readFrames_of_wraps (hlen : data.length < 2147483648) (ho : o ≤ data.length)
    (hwrap : WrapsAt data o) : ∃ message,
      readFrames crc data pageSize (fuel + 1) checksum o pages commit =
        some (.error (.panic message)) := by
  have hsum : int32 ((o : Int) + walFrameHeaderSize) ≤ data.length := by
    rw [walFrameHeaderSize]
    obtain hlt | hle := lt_or_ge (o + 16) 2147483648
    · rw [int32_of_lt (by omega) (by omega)]
      obtain hfar | ⟨hheader, -⟩ := hwrap <;> omega
    · rw [int32_of_le (by omega) (by omega)]
      omega
  obtain ⟨message, hread⟩ := @readFrame_wraps crc _ checksum _ hlen ho hwrap
  exact ⟨message, by rw [readFrames, if_pos hsum, hread]⟩

/-- The loop goes through a chain of frames, and ends or panics after it. -/
theorem readFrames_outcome (hlen : data.length < 2147483648) (ho : o ≤ data.length)
    {out : Except Failure (Option WalCommit)}
    (h : readFrames crc data pageSize fuel checksum o pages commit = some out) :
    ∃ frames last n, n ≤ data.length ∧
      FrameChain crc checksum (data.drop o) frames last (data.drop n) ∧
      (¬WrapsAt data n ∧ ChainEnds crc last (data.drop n) ∧
          out = .ok (frames.foldl (replayFrame pageSize) (pages, commit)).2 ∨
        WrapsAt data n ∧ ∃ message, out = .error (.panic message)) := by
  induction fuel generalizing checksum o pages commit with
  | zero => cases h
  | succ fuel ih =>
      by_cases hwrap : WrapsAt data o
      · obtain ⟨message, hpanic⟩ := @readFrames_of_wraps crc _ checksum _ pageSize fuel pages commit
          hlen ho hwrap
        cases hpanic.symm.trans h
        exact ⟨[], checksum, o, ho, .nil, .inr ⟨hwrap, message, rfl⟩⟩
      · rw [readFrames_succ hlen hwrap] at h
        cases hnext : walNextFrame crc checksum (data.drop o) with
        | none =>
            rw [hnext] at h
            cases h
            refine ⟨[], checksum, o, ho, .nil, .inl ⟨hwrap, ?_, rfl⟩⟩
            intro frame hframe
            rw [isFrame_iff (length_drop_lt hlen o), hnext] at hframe
            cases hframe
        | some frame =>
            rw [hnext] at h
            simp only at h
            have hframe := isFrame_of_walNextFrame hnext
            have hlength := hframe.length
            have hrest := hframe.rest_eq
            rw [List.length_drop, u32At_drop] at hlength
            rw [List.drop_drop, u32At_drop, ← Nat.add_assoc] at hrest
            split_ifs at h with hkind
            · obtain ⟨frames, last, n, hn, hchain, hout⟩ := ih (by omega) h
              rw [← hrest] at hchain
              exact ⟨frame :: frames, last, n, hn, .cons hframe hkind hchain, hout⟩
            · cases h
              refine ⟨[], checksum, o, ho, .nil, .inl ⟨hwrap, ?_, rfl⟩⟩
              intro frame' hframe'
              rw [isFrame_iff (length_drop_lt hlen o), hnext] at hframe'
              cases hframe'
              exact hkind

theorem exists_readFrames (hlen : data.length < 2147483648) (ho : o ≤ data.length)
    (hfuel : data.length - o < fuel) :
    ∃ out, readFrames crc data pageSize fuel checksum o pages commit = some out := by
  induction fuel generalizing checksum o pages commit with
  | zero => omega
  | succ fuel ih =>
      by_cases hwrap : WrapsAt data o
      · obtain ⟨message, hpanic⟩ := @readFrames_of_wraps crc _ checksum _ pageSize fuel pages commit
          hlen ho hwrap
        exact ⟨_, hpanic⟩
      · rw [readFrames_succ hlen hwrap]
        cases hnext : walNextFrame crc checksum (data.drop o) with
        | none => exact ⟨_, rfl⟩
        | some frame =>
            have hlength := (isFrame_of_walNextFrame hnext).length
            rw [List.length_drop, u32At_drop] at hlength
            simp only
            split_ifs
            · exact ih (by omega) (by omega)
            · exact ⟨_, rfl⟩

/-! ## The last commit -/

theorem FrameChain.hasKind {last : UInt32} {rest : Bytes} {frames : List WalFrame}
    (h : FrameChain crc checksum data frames last rest) : ∀ f ∈ frames, HasKind f := by
  induction h with
  | nil => simp
  | cons _ hkind _ ih => exact List.forall_mem_cons.mpr ⟨hkind, ih⟩

theorem lastPage_append (frames : List WalFrame) (frame : WalFrame) (n : Int) :
    lastPage (frames ++ [frame]) n =
      if frame.kind = walFramePage ∧ toInt32 frame.number = n then some frame.data
      else lastPage frames n := by
  unfold lastPage
  rw [List.filter_append, List.filter_singleton]
  split_ifs with h
  · simp [h]
  · simp [h]

theorem lastCommit_append_page {frames : List WalFrame} {frame : WalFrame}
    (hpage : frame.kind = walFramePage) (h : LastCommit pageSize frames commit) :
    LastCommit pageSize (frames ++ [frame]) commit := by
  have hne : frame.kind ≠ walFrameCommit := by
    rw [hpage]
    decide
  cases commit with
  | none =>
      intro f hf
      obtain hf | hf := List.mem_append.mp hf
      · exact h f hf
      · rw [List.mem_singleton.mp hf]
        exact hne
  | some commit =>
      obtain ⟨before, last, after, rfl, hlast, hafter, hcommit⟩ := h
      refine ⟨before, last, after ++ [frame], by simp, hlast, ?_, hcommit⟩
      intro f hf
      obtain hf | hf := List.mem_append.mp hf
      · exact hafter f hf
      · rw [List.mem_singleton.mp hf]
        exact hne

/-- The pages and the last commit after any frames. -/
theorem foldl_replayFrame (frames : List WalFrame) (hkind : ∀ f ∈ frames, HasKind f) :
    (∀ n, (frames.foldl (replayFrame pageSize) (.empty, none)).1.get? n = lastPage frames n) ∧
      LastCommit pageSize frames (frames.foldl (replayFrame pageSize) (.empty, none)).2 := by
  induction frames using List.reverseRecOn with
  | nil => exact ⟨fun n => rfl, fun f hf => absurd hf List.not_mem_nil⟩
  | append_singleton frames frame ih =>
      obtain ⟨hpages, hcommit⟩ := ih fun f hf => hkind f (List.mem_append_left _ hf)
      rw [List.foldl_append, List.foldl_cons, List.foldl_nil]
      obtain hpage | hlast := hkind frame (by simp)
      · simp only [replayFrame, hpage, if_true]
        refine ⟨fun n => ?_, lastCommit_append_page hpage hcommit⟩
        rw [OrderedMap.get?_set, lastPage_append, hpages]
        simp only [hpage, true_and, eq_comm]
      · have hne : frame.kind ≠ walFramePage := by
          rw [hlast]
          decide
        simp only [replayFrame, hne, if_false]
        refine ⟨fun n => ?_, frames, frame, [], rfl, hlast, by simp, rfl, rfl, rfl, hpages⟩
        rw [lastPage_append, hpages, if_neg (fun h => hne h.1)]

/-! ## The whole log -/

/-- A sum wraps around at the end of some of the frames of the log. -/
def SumsWrap (crc : Bytes → UInt32) (data : Bytes) : Prop :=
  HasLogHeader crc data ∧ ∃ frames last n, n ≤ data.length ∧
    FrameChain crc (UInt32.ofNat (u32At data 16)) (data.drop walHeaderSize) frames last
      (data.drop n) ∧ WrapsAt data n

/-- A chain of frames is the start of the longest one. -/
theorem FrameChain.eq_or_isFrame {first last : UInt32} {rest rest' : Bytes}
    {before frames : List WalFrame} (hdata : data.length < 2147483648)
    (hbefore : FrameChain crc checksum data before first rest)
    (hchain : FrameChain crc checksum data frames last rest') (hends : ChainEnds crc last rest') :
    rest = rest' ∨ ∃ frame, IsFrame crc first rest frame := by
  induction hbefore generalizing frames with
  | nil =>
      cases hchain with
      | nil => exact .inl rfl
      | cons h => exact .inr ⟨_, h⟩
  | cons h hkind _ ih =>
      cases hchain with
      | nil => exact absurd hkind (hends _ h)
      | cons h' _ hchain =>
          cases (walNextFrame_of_isFrame hdata h).symm.trans (walNextFrame_of_isFrame hdata h')
          have hlength := h.length
          exact ih (by omega) hchain

theorem readLog_eq_walRead (crc : Bytes → UInt32) {data : Bytes}
    (hdata : data.length < 2147483648) :
    readLog crc data (data.length + 1) = some (walRead crc data) := by
  have hsome : ∃ out, readLog crc data (data.length + 1) = some out := by
    unfold readLog
    by_cases hheader : HasLogHeader crc data
    · rw [if_pos hheader]
      exact exists_readFrames hdata hheader.1 (by omega)
    · exact ⟨.ok none, by rw [if_neg hheader]⟩
  obtain ⟨out, hout⟩ := hsome
  rw [walRead, hout, Option.getD_some]

/-- Reading a log ends.  It panics if a sum wraps around at the end of the frames, and else it
returns the pages and the header of the last commit. -/
theorem readLog_outcome (crc : Bytes → UInt32) {data : Bytes} (hdata : data.length < 2147483648) :
    readLog crc data (data.length + 1) = some (walRead crc data) ∧
      ∀ fuel out, readLog crc data fuel = some out →
        (SumsWrap crc data ∧ ∃ message, out = .error (.panic message)) ∨
          ¬SumsWrap crc data ∧ ∃ commit, out = .ok commit ∧ HoldsCommit crc data commit := by
  refine ⟨readLog_eq_walRead crc hdata, fun fuel out h => ?_⟩
  rw [readLog] at h
  by_cases hheader : HasLogHeader crc data
  · rw [if_pos hheader] at h
    obtain ⟨frames, last, n, hn, hchain, ⟨hwrap, hends, rfl⟩ | ⟨hwrap, hpanic⟩⟩ :=
      readFrames_outcome hdata hheader.1 h
    · right
      constructor
      · rintro ⟨-, before, first, m, hm, hbefore, hwraps⟩
        obtain hrest | ⟨frame, hframe⟩ :=
          hbefore.eq_or_isFrame (length_drop_lt hdata _) hchain hends
        · have hlength := congrArg List.length hrest
          rw [List.length_drop, List.length_drop] at hlength
          obtain rfl : m = n := by omega
          exact hwrap hwraps
        · exact not_wrapsAt_of_isFrame hdata hframe hwraps
      · refine ⟨_, rfl, ?_⟩
        rw [HoldsCommit, if_pos hheader]
        exact ⟨frames, last, _, hchain, hends, (foldl_replayFrame frames hchain.hasKind).2⟩
    · exact .inl ⟨⟨hheader, frames, last, n, hn, hchain, hwrap⟩, hpanic⟩
  · rw [if_neg hheader] at h
    cases h
    exact .inr ⟨fun hwraps => hheader hwraps.1, none, rfl, by rw [HoldsCommit, if_neg hheader]⟩

/-- The log of a page and a header, and the first bytes of a page that was not written to its
end. -/
def tornLog : Bytes :=
  walLog (fun _ => 7) 7 17 (.set .empty 0 [1, 2, 3]) [4, 5] 1 ++
    ((walFrame (fun _ => 7) walFramePage 1 [6, 6, 6] 7).1.take 18)

theorem readLog_outcome_torn :
    readLog (fun _ => 7) tornLog 4 = some (.ok (some ⟨17, .set .empty 0 [1, 2, 3], [4, 5], 1⟩)) ∧
      HoldsCommit (fun _ => 7) tornLog (some ⟨17, .set .empty 0 [1, 2, 3], [4, 5], 1⟩) := by
  have hread : readLog (fun _ => 7) tornLog 4 =
      some (.ok (some ⟨17, .set .empty 0 [1, 2, 3], [4, 5], 1⟩)) := by
    decide +kernel
  have hlength : tornLog.length < 2147483648 := by decide +kernel
  obtain ⟨-, hends⟩ := readLog_outcome (fun _ => 7) hlength
  obtain ⟨-, message, hpanic⟩ | ⟨-, commit, hcommit, hholds⟩ := hends 4 _ hread
  · cases hpanic
  · cases hcommit
    exact ⟨hread, hholds⟩

end Vsql
