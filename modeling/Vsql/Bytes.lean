import Mathlib.Data.List.Induction
import Mathlib.Data.List.Lex
import Mathlib.Order.Basic
import Vsql.Foundation.ByteFile

/-!
# Byte strings

Numbers are always stored most significant byte first.  `compareBytes` is the
order of the keys of the B-tree; it is the lexicographic order on lists of
bytes.
-/

namespace Vsql

open Foundation

/-! ## The order of keys -/

instance instLinearOrderByte : LinearOrder UInt8 where
  le_refl := UInt8.le_refl
  le_trans _ _ _ := UInt8.le_trans
  le_antisymm _ _ := UInt8.le_antisymm
  le_total := UInt8.le_total
  lt_iff_le_not_ge a b := by
    simp only [UInt8.le_iff_toNat_le, UInt8.lt_iff_toNat_lt]
    omega
  toDecidableLE := inferInstance
  toDecidableEq := inferInstance
  toDecidableLT := inferInstance
  min_def := by intros; rfl
  max_def := by intros; rfl

def compareBytes : Bytes → Bytes → Int
  | [], b => -b.length
  | a, [] => a.length
  | x :: a, y :: b =>
      if x ≠ y then (x.toNat : Int) - y.toNat else compareBytes a b

theorem compareBytes_neg_iff (a b : Bytes) : compareBytes a b < 0 ↔ a < b := by
  induction a generalizing b with
  | nil =>
      cases b with
      | nil => simp [compareBytes]
      | cons y b =>
          have hneg : compareBytes [] (y :: b) < 0 := by
            simp only [compareBytes, List.length_cons]
            omega
          exact iff_of_true hneg (List.nil_lt_cons y b)
  | cons x a ih =>
      cases b with
      | nil =>
          have hpos : ¬ compareBytes (x :: a) [] < 0 := by
            simp only [compareBytes, List.length_cons]
            omega
          exact iff_of_false hpos (List.not_lt_nil _)
      | cons y b =>
          rw [List.cons_lt_cons_iff, ← ih]
          by_cases h : x = y
          · simp [compareBytes, h]
          · have hbyte : (x.toNat : Int) - y.toNat < 0 ↔ x < y := by
              rw [UInt8.lt_iff_toNat_lt]
              omega
            simp only [compareBytes, ne_eq, h, not_false_eq_true, if_true, hbyte,
              false_and, or_false]

/-! ## Big-endian numbers -/

/-- The `width` lowest bytes of `n`, most significant first. -/
def bigEndian : Nat → Nat → Bytes
  | 0, _ => []
  | width + 1, n => bigEndian width (n / 256) ++ [UInt8.ofNat (n % 256)]

def ofBigEndian (data : Bytes) : Nat :=
  data.foldl (fun n b => n * 256 + b.toNat) 0

def writeU16 (n : Nat) : Bytes := bigEndian 2 n
def writeU32 (n : Nat) : Bytes := bigEndian 4 n
def writeU64 (n : Nat) : Bytes := bigEndian 8 n

@[simp] theorem length_bigEndian (width n : Nat) :
    (bigEndian width n).length = width := by
  induction width generalizing n with
  | zero => rfl
  | succ width ih => simp [bigEndian, ih]

@[simp] theorem length_writeU16 (n : Nat) : (writeU16 n).length = 2 :=
  length_bigEndian 2 n

@[simp] theorem length_writeU32 (n : Nat) : (writeU32 n).length = 4 :=
  length_bigEndian 4 n

@[simp] theorem length_writeU64 (n : Nat) : (writeU64 n).length = 8 :=
  length_bigEndian 8 n

theorem ofBigEndian_bigEndian {width n : Nat} (h : n < 256 ^ width) :
    ofBigEndian (bigEndian width n) = n := by
  induction width generalizing n with
  | zero =>
      have hn : n = 0 := by simpa using h
      simp [hn, bigEndian, ofBigEndian]
  | succ width ih =>
      have hdiv : n / 256 < 256 ^ width := by
        rw [Nat.div_lt_iff_lt_mul (by omega)]
        simpa [Nat.pow_succ] using h
      have hbyte : (UInt8.ofNat (n % 256)).toNat = n % 256 := by simp
      have hlow := ih hdiv
      rw [ofBigEndian] at hlow ⊢
      rw [bigEndian, List.foldl_append, hlow, List.foldl_cons, List.foldl_nil,
        hbyte]
      omega

theorem ofBigEndian_writeU32 {n : Nat} (h : n < 2 ^ 32) :
    ofBigEndian (writeU32 n) = n :=
  ofBigEndian_bigEndian (by simpa using h)

theorem ofBigEndian_writeU16 {n : Nat} (h : n < 2 ^ 16) :
    ofBigEndian (writeU16 n) = n :=
  ofBigEndian_bigEndian (by simpa using h)

theorem ofBigEndian_append (data : Bytes) (b : UInt8) :
    ofBigEndian (data ++ [b]) = ofBigEndian data * 256 + b.toNat := by
  rw [ofBigEndian, List.foldl_append]
  rfl

theorem ofBigEndian_lt (data : Bytes) : ofBigEndian data < 256 ^ data.length := by
  induction data using List.reverseRecOn with
  | nil => decide
  | append_singleton data b ih =>
      have hb := b.toNat_lt
      rw [ofBigEndian_append, List.length_append, List.length_singleton, Nat.pow_succ]
      omega

/-- `int` is a signed 32-bit number, and its arithmetic wraps around. -/
def toInt32 (n : Nat) : Int :=
  if n % 2 ^ 32 < 2 ^ 31 then (n % 2 ^ 32 : Nat)
  else (n % 2 ^ 32 : Nat) - (2 ^ 32 : Int)

theorem toInt32_of_lt {n : Nat} (h : n < 2 ^ 31) : toInt32 n = n := by
  have hmod : n % 2 ^ 32 = n := Nat.mod_eq_of_lt (by omega)
  rw [toInt32, hmod, if_pos h]

def bytestr (data : Bytes) : String :=
  String.ofList (data.map fun b => Char.ofNat b.toNat)

end Vsql
