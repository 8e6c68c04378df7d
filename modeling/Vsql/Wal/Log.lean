import Vsql.Pager

/-!
# The bytes of the write-ahead log

A log is a header and a chain of frames.  Each frame carries a checksum that
continues the one before it, and a statement is committed once its commit frame
is complete.  The checksum function is a parameter: nothing here depends on
which one it is.
-/

namespace Vsql

open Foundation ByteFile

/-- The characters of `vsqlwal\n`. -/
def walMagic : Bytes := [0x76, 0x73, 0x71, 0x6c, 0x77, 0x61, 0x6c, 0x0a]

def walVersion : Nat := 1
def walHeaderSize : Nat := 32
def walFrameHeaderSize : Nat := 16
def walStateOffset : Nat := 10
def walStateCommitted : UInt8 := 0
def walStateCheckpointed : UInt8 := 1
def walFramePage : UInt8 := 1
def walFrameCommit : UInt8 := 2

def walPath (path : String) : String := path ++ ".wal"

def u16At (data : Bytes) (i : Nat) : Nat := ofBigEndian ((data.drop i).take 2)
def u32At (data : Bytes) (i : Nat) : Nat := ofBigEndian ((data.drop i).take 4)

/-- A frame at the front of the data that is left to read. -/
structure WalFrame where
  kind : UInt8
  number : Nat
  data : Bytes
  checksum : UInt32
  rest : Bytes

section

variable (crc : Bytes → UInt32)

/-! ## Writing -/

def walHeaderFields (salt : UInt32) (pageSize : Nat) : Bytes :=
  walMagic ++ writeU16 walVersion ++ [walStateCommitted, 0] ++
    writeU32 pageSize ++ writeU32 salt.toNat ++ List.replicate 8 0

def walHeader (salt : UInt32) (pageSize : Nat) : Bytes :=
  walHeaderFields salt pageSize ++
    writeU32 (crc (walHeaderFields salt pageSize)).toNat

def walChecksum (previousChecksum : UInt32) (frameHeader data : Bytes) :
    UInt32 :=
  crc (writeU32 previousChecksum.toNat ++ frameHeader ++ data)

def walFrameFields (kind : UInt8) (number : Nat) (data : Bytes) : Bytes :=
  [kind, 0, 0, 0] ++ writeU32 number ++ writeU32 data.length

def walFrame (kind : UInt8) (number : Nat) (data : Bytes)
    (previousChecksum : UInt32) : Bytes × UInt32 :=
  let fields := walFrameFields kind number data
  let checksum := walChecksum crc previousChecksum fields data
  (fields ++ writeU32 checksum.toNat ++ data, checksum)

/-- The writes of a statement to the log after its header: a frame for each
page, and the commit frame. -/
def walFrames (pages : List (Nat × Bytes)) (headerBytes : Bytes)
    (totalPages : Nat) (checksum : UInt32) : List Bytes :=
  match pages with
  | [] => [(walFrame crc walFrameCommit totalPages headerBytes checksum).1]
  | (pageNumber, data) :: pages =>
      let (frame, frameChecksum) :=
        walFrame crc walFramePage pageNumber data checksum
      frame :: walFrames pages headerBytes totalPages frameChecksum

/-! ## Reading -/

/-- The valid frame at the front of the data, if there is one. -/
def walNextFrame (checksum : UInt32) (data : Bytes) : Option WalFrame :=
  let len := u32At data 8
  let frameChecksum := UInt32.ofNat (u32At data 12)
  let rest := data.drop walFrameHeaderSize
  if data.length < walFrameHeaderSize then none
  -- A length that is negative as an `int`, or that goes past the end.
  else if 2 ^ 31 ≤ len ∨ rest.length < len then none
  else if walChecksum crc checksum (data.take 12) (rest.take len) ≠
      frameChecksum then none
  else
    some ⟨byteAt data 0, u32At data 4, rest.take len, frameChecksum,
      rest.drop len⟩

end

/-! ## Fixed positions -/

variable {crc : Bytes → UInt32}

theorem u32At_append {before : Bytes} {i n : Nat} (hi : before.length = i)
    (hn : n < 2 ^ 32) (after : Bytes) :
    u32At (before ++ (writeU32 n ++ after)) i = n := by
  rw [u32At, List.drop_left' hi, List.take_left' (length_writeU32 n)]
  exact ofBigEndian_writeU32 hn

@[simp] theorem length_walHeader (salt : UInt32) (pageSize : Nat) :
    (walHeader crc salt pageSize).length = walHeaderSize := by
  simp [walHeader, walHeaderFields, walMagic, walHeaderSize]

@[simp] theorem length_walFrameFields (kind : UInt8) (number : Nat)
    (data : Bytes) : (walFrameFields kind number data).length = 12 := by
  simp [walFrameFields]

@[simp] theorem length_walFrame (kind : UInt8) (number : Nat) (data : Bytes)
    (checksum : UInt32) :
    (walFrame crc kind number data checksum).1.length =
      walFrameHeaderSize + data.length := by
  simp [walFrame, walFrameHeaderSize]
  omega

/-! ## Reading back one frame -/

theorem walNextFrame_of_short {data : Bytes} (checksum : UInt32)
    (h : data.length < walFrameHeaderSize) :
    walNextFrame crc checksum data = none := by
  simp only [walNextFrame, if_pos h]

theorem walNextFrame_of_cut {data : Bytes} (checksum : UInt32)
    (h : (data.drop walFrameHeaderSize).length < u32At data 8) :
    walNextFrame crc checksum data = none := by
  simp only [walNextFrame, if_pos (Or.inr h), ite_self]

theorem walNextFrame_of_valid {data : Bytes} {checksum : UInt32}
    (hlong : ¬data.length < walFrameHeaderSize)
    (hlen : ¬(2 ^ 31 ≤ u32At data 8 ∨
      (data.drop walFrameHeaderSize).length < u32At data 8))
    (hsum : walChecksum crc checksum (data.take 12)
      ((data.drop walFrameHeaderSize).take (u32At data 8)) =
        UInt32.ofNat (u32At data 12)) :
    walNextFrame crc checksum data =
      some ⟨byteAt data 0, u32At data 4,
        (data.drop walFrameHeaderSize).take (u32At data 8),
        UInt32.ofNat (u32At data 12),
        (data.drop walFrameHeaderSize).drop (u32At data 8)⟩ := by
  simp only [walNextFrame, if_neg hlong, if_neg hlen]
  rw [if_neg (not_not.mpr hsum)]

section

variable (kind : UInt8) (number : Nat) (data tail : Bytes)

private theorem walFrameFields_drop :
    (walFrameFields kind number data ++ tail).drop 12 = tail :=
  List.drop_left' (length_walFrameFields kind number data)

private theorem u32At_walFrameFields_four (h : number < 2 ^ 32) :
    u32At (walFrameFields kind number data ++ tail) 4 = number := by
  rw [walFrameFields, List.append_assoc, List.append_assoc]
  exact u32At_append rfl h _

theorem u32At_walFrameFields_eight (h : data.length < 2 ^ 31) :
    u32At (walFrameFields kind number data ++ tail) 8 = data.length := by
  have hlen : ([kind, 0, 0, 0] ++ writeU32 number).length = 8 := by simp
  rw [walFrameFields, List.append_assoc]
  exact u32At_append hlen (by omega) tail

private theorem drop_walFrameHeader (checksum : UInt32) :
    (walFrameFields kind number data ++
      (writeU32 checksum.toNat ++ tail)).drop walFrameHeaderSize = tail := by
  rw [← List.append_assoc]
  exact List.drop_left' (by simp [walFrameHeaderSize])

end

theorem walFrame_fst (kind : UInt8) (number : Nat) (data : Bytes)
    (checksum : UInt32) :
    (walFrame crc kind number data checksum).1 =
      walFrameFields kind number data ++
        (writeU32 (walFrame crc kind number data checksum).2.toNat ++ data) := by
  simp [walFrame]

/-- A frame that was not written to its end is not read. -/
theorem walNextFrame_torn (kind : UInt8) (number : Nat) {data : Bytes}
    (hdata : data.length < 2 ^ 31) (checksum checksum' : UInt32) {k : Nat}
    (hk : k < (walFrame crc kind number data checksum).1.length) :
    walNextFrame crc checksum'
      ((walFrame crc kind number data checksum).1.take k) = none := by
  rw [length_walFrame] at hk
  by_cases hshort : k < walFrameHeaderSize
  · refine walNextFrame_of_short _ ?_
    simp only [List.length_take]
    omega
  · have hcut : ((walFrame crc kind number data checksum).1.take k) =
        walFrameFields kind number data ++
          (writeU32 (walFrame crc kind number data checksum).2.toNat ++
            data.take (k - walFrameHeaderSize)) := by
      simp only [walFrameHeaderSize, not_lt] at hshort ⊢
      rw [walFrame_fst, ← List.append_assoc, List.take_append,
        List.take_of_length_le (by simpa using hshort), List.append_assoc]
      simp
    refine walNextFrame_of_cut _ ?_
    rw [hcut, u32At_walFrameFields_eight _ _ _ _ hdata, drop_walFrameHeader,
      List.length_take]
    omega

theorem walNextFrame_append (kind : UInt8) {number : Nat}
    (hnumber : number < 2 ^ 32) {data : Bytes} (hdata : data.length < 2 ^ 31)
    (checksum : UInt32) (rest : Bytes) :
    walNextFrame crc checksum
        ((walFrame crc kind number data checksum).1 ++ rest) =
      some ⟨kind, number, data, (walFrame crc kind number data checksum).2,
        rest⟩ := by
  have hframe : (walFrame crc kind number data checksum).1 ++ rest =
      walFrameFields kind number data ++
        (writeU32 (walFrame crc kind number data checksum).2.toNat ++
          (data ++ rest)) := by
    rw [walFrame_fst]
    simp
  have hlen := u32At_walFrameFields_eight kind number data
    (writeU32 (walFrame crc kind number data checksum).2.toNat ++ (data ++ rest))
    hdata
  have hnum := u32At_walFrameFields_four kind number data
    (writeU32 (walFrame crc kind number data checksum).2.toNat ++ (data ++ rest))
    hnumber
  have hrest := drop_walFrameHeader kind number data (data ++ rest)
    (walFrame crc kind number data checksum).2
  have hcheck : u32At (walFrameFields kind number data ++
      (writeU32 (walFrame crc kind number data checksum).2.toNat ++
        (data ++ rest))) 12 =
      (walFrame crc kind number data checksum).2.toNat :=
    u32At_append (length_walFrameFields kind number data)
      (UInt32.toNat_lt _) _
  have hfields : (walFrameFields kind number data ++
      (writeU32 (walFrame crc kind number data checksum).2.toNat ++
        (data ++ rest))).take 12 = walFrameFields kind number data :=
    List.take_left' (length_walFrameFields kind number data)
  have hkind : byteAt (walFrameFields kind number data ++
      (writeU32 (walFrame crc kind number data checksum).2.toNat ++
        (data ++ rest))) 0 = kind := by
    simp [byteAt, walFrameFields]
  rw [hframe, walNextFrame_of_valid]
  · simp [hlen, hnum, hrest, hcheck, hkind]
  · simp [walFrameHeaderSize]
    omega
  · simp [hlen, hrest]
    omega
  · rw [hfields, hrest, hlen, hcheck, List.take_left, UInt32.ofNat_toNat]
    rfl

/-! ## Reading back a log -/

/-- The numbers and sizes that fit in the fields of a frame. -/
def FitsFrame (pages : List (Nat × Bytes)) : Prop :=
  ∀ page ∈ pages, page.1 < 2 ^ 31 ∧ page.2.length < 2 ^ 31

theorem FitsFrame.tail {page : Nat × Bytes} {pages : List (Nat × Bytes)}
    (h : FitsFrame (page :: pages)) : FitsFrame pages :=
  fun p hp => h p (List.mem_cons_of_mem _ hp)

/-- The whole log that a statement writes. -/
def walLog (crc : Bytes → UInt32) (salt : UInt32) (pageSize : Nat)
    (pages : OrderedMap Nat Bytes) (headerBytes : Bytes) (totalPages : Nat) :
    Bytes :=
  walHeader crc salt pageSize ++
    (walFrames crc pages.entries headerBytes totalPages salt).flatten

end Vsql
