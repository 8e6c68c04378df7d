import Vsql.Bytes

/-!
# SQLSTATE codes

The five characters of a code are the digits of a number in base 36, so that the code of an
error is an `int`.
-/

namespace Vsql.Pg

open Foundation

/-- `to_upper`, which leaves what is not ASCII alone. -/
def upperByte (b : UInt8) : UInt8 := if 97 ≤ b ∧ b ≤ 122 then b - 32 else b

def sqlstateChr (ch : UInt8) : Int :=
  if ch ≤ 57 then (ch - 48).toNat else (ch - 65 + 10).toNat

def sqlstateOrd (ch : Int) : UInt8 :=
  if ch ≤ 9 then 48 + UInt8.ofInt ch else 65 + (UInt8.ofInt ch - 10)

def sqlstateToInt (code : Bytes) : Int :=
  let upperCode := code.map upperByte
  sqlstateChr (upperCode.getD 0 0) * 1679616 + sqlstateChr (upperCode.getD 1 0) * 46656 +
    sqlstateChr (upperCode.getD 2 0) * 1296 + sqlstateChr (upperCode.getD 3 0) * 36 +
    sqlstateChr (upperCode.getD 4 0)

def sqlstateFromInt (code : Int) : Bytes :=
  ([1679616, 46656, 1296, 36, 1].foldl
    (fun (b, left) m => (b ++ [sqlstateOrd (left.tdiv m)], left - left.tdiv m * m))
    (([] : Bytes), code)).1

def IsCodeByte (b : UInt8) : Prop := 48 ≤ b ∧ b ≤ 57 ∨ 65 ≤ b ∧ b ≤ 90

instance (b : UInt8) : Decidable (IsCodeByte b) := inferInstanceAs (Decidable (_ ∨ _))

/-- A digit or an upper case letter in each place. -/
structure SqlCode where
  code : Bytes
  length : code.length = 5
  chars : ∀ b ∈ code, IsCodeByte b

theorem forall_byte {P : UInt8 → Prop} [DecidablePred P]
    (h : ∀ n < 256, P (UInt8.ofNat n)) (b : UInt8) : P b := by
  have hb := h b.toNat b.toNat_lt
  rwa [UInt8.ofNat_toNat] at hb

/-- The digit of a character, and its character again. -/
theorem sqlstateChr_spec : ∀ b, IsCodeByte b →
    (0 ≤ sqlstateChr (upperByte b) ∧ sqlstateChr (upperByte b) ≤ 35) ∧
      sqlstateOrd (sqlstateChr (upperByte b)) = b := by
  apply forall_byte
  decide +kernel

theorem tdiv_digit {x r m : Int} (hx : 0 ≤ x) (hr : 0 ≤ r ∧ r < m) : (x * m + r).tdiv m = x := by
  have hm : 0 < m := by omega
  have hxm : 0 ≤ x * m := Int.mul_nonneg hx hm.le
  rw [Int.tdiv_eq_ediv_of_nonneg (by omega), Int.add_comm, Int.add_mul_ediv_right _ _ hm.ne',
    Int.ediv_eq_zero_of_lt hr.1 hr.2, Int.zero_add]

theorem sqlstateFromInt_digits {v w x y z : Int} (hv : 0 ≤ v ∧ v ≤ 35) (hw : 0 ≤ w ∧ w ≤ 35)
    (hx : 0 ≤ x ∧ x ≤ 35) (hy : 0 ≤ y ∧ y ≤ 35) (hz : 0 ≤ z ∧ z ≤ 35) :
    sqlstateFromInt (v * 1679616 + w * 46656 + x * 1296 + y * 36 + z) =
      [v, w, x, y, z].map sqlstateOrd := by
  have hfirst : (v * 1679616 + (w * 46656 + x * 1296 + y * 36 + z)).tdiv 1679616 = v :=
    tdiv_digit hv.1 (by omega)
  have hsecond : (w * 46656 + (x * 1296 + y * 36 + z)).tdiv 46656 = w :=
    tdiv_digit hw.1 (by omega)
  have hthird : (x * 1296 + (y * 36 + z)).tdiv 1296 = x := tdiv_digit hx.1 (by omega)
  have hfourth : (y * 36 + z).tdiv 36 = y := tdiv_digit hy.1 (by omega)
  have hsum : v * 1679616 + w * 46656 + x * 1296 + y * 36 + z =
      v * 1679616 + (w * 46656 + x * 1296 + y * 36 + z) := by omega
  have hleft : v * 1679616 + (w * 46656 + x * 1296 + y * 36 + z) - v * 1679616 =
      w * 46656 + (x * 1296 + y * 36 + z) := by omega
  have hleft' : w * 46656 + (x * 1296 + y * 36 + z) - w * 46656 = x * 1296 + (y * 36 + z) := by
    omega
  have hleft'' : x * 1296 + (y * 36 + z) - x * 1296 = y * 36 + z := by omega
  have hlast : y * 36 + z - y * 36 = z := by omega
  simp only [sqlstateFromInt, List.foldl_cons, List.foldl_nil, hsum, hfirst, hleft, hsecond,
    hleft', hthird, hleft'', hfourth, hlast, Int.tdiv_one, List.map_cons, List.map_nil]
  rfl

/-- A code is the digits of its number. -/
theorem sqlstateFromInt_sqlstateToInt (s : SqlCode) :
    sqlstateFromInt (sqlstateToInt s.code) = s.code := by
  obtain ⟨code, hlength, hchars⟩ := s
  obtain ⟨a, b, c, d, e, rfl⟩ : ∃ a b c d e, code = [a, b, c, d, e] := by
    match code, hlength with
    | [a, b, c, d, e], _ => exact ⟨a, b, c, d, e, rfl⟩
  obtain ⟨ha, haOrd⟩ := sqlstateChr_spec a (hchars a (by simp))
  obtain ⟨hb, hbOrd⟩ := sqlstateChr_spec b (hchars b (by simp))
  obtain ⟨hc, hcOrd⟩ := sqlstateChr_spec c (hchars c (by simp))
  obtain ⟨hd, hdOrd⟩ := sqlstateChr_spec d (hchars d (by simp))
  obtain ⟨he, heOrd⟩ := sqlstateChr_spec e (hchars e (by simp))
  have hdigits := sqlstateFromInt_digits ha hb hc hd he
  rw [List.map_cons, List.map_cons, List.map_cons, List.map_cons, List.map_cons, List.map_nil,
    haOrd, hbOrd, hcOrd, hdOrd, heOrd] at hdigits
  exact hdigits

end Vsql.Pg
