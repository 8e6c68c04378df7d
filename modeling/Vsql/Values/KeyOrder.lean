import Mathlib.Data.List.TakeWhile
import Vsql.Values.Key

/-!
# The order of the keys of numbers and strings

The keys of two values sort like the values compare.  For numbers this follows
the digits: a number with more digits before the point has the larger exponent,
and numbers with the same exponent differ in a digit.  For strings it follows
the characters, where the byte after a space stands for the spaces that a
shorter string is padded with.
-/

namespace Vsql

open Foundation
open Foundation.OrderedCode

/-! ## Exact numbers -/

theorem fixedWidth_succ (base width n : Nat) :
    fixedWidth base (width + 1) n =
      (n / base ^ width % base) :: fixedWidth base width n := by
  induction width generalizing n with
  | zero => simp [fixedWidth]
  | succ width ih =>
      rw [fixedWidth, ih, Nat.div_div_eq_div_mul, ← Nat.pow_succ', fixedWidth]
      rfl

/-- The first digit of a positive number is not zero. -/
theorem decimal_eq_cons {n : Nat} (h : 0 < n) :
    ∃ d ds, decimal n = d :: ds ∧ d ≠ 0 := by
  refine ⟨_, _, fixedWidth_succ 10 (Nat.log 10 n) n, ?_⟩
  have hlow : 10 ^ Nat.log 10 n ≤ n := Nat.pow_log_le_self 10 (by omega)
  have hhigh : n < 10 ^ (Nat.log 10 n + 1) := Nat.lt_pow_succ_log_self (by omega) n
  have hpos : 0 < n / 10 ^ Nat.log 10 n := Nat.div_pos hlow (Nat.pow_pos (by omega))
  have hlt : n / 10 ^ Nat.log 10 n < 10 := by
    rw [Nat.div_lt_iff_lt_mul (Nat.pow_pos (by omega))]
    rw [Nat.pow_succ] at hhigh
    omega
  omega

theorem dropWhile_zero_cons {d : Nat} (hd : d ≠ 0) (ds : List Nat) :
    (d :: ds).dropWhile (· == 0) = d :: ds := by
  simp [hd]

theorem dropWhile_zero_replicate (k : Nat) (ds : List Nat) :
    (List.replicate k 0 ++ ds).dropWhile (· == 0) = ds.dropWhile (· == 0) := by
  induction k with
  | zero => rfl
  | succ k ih =>
      rw [List.replicate_succ, List.cons_append, List.dropWhile_cons_of_pos (by rfl), ih]

theorem significantDigits_eq {magnitude : Nat} (places : Nat) (h : 0 < magnitude) :
    significantDigits magnitude places =
      (((decimal magnitude).length : Int) - places, dropZeros (decimal magnitude)) := by
  obtain ⟨d, ds, hdec, hd⟩ := decimal_eq_cons h
  generalize hL : decimal magnitude = s at hdec
  subst hdec
  unfold significantDigits
  simp only [hL]
  by_cases hlen : (d :: ds).length ≤ places
  · obtain ⟨k, hk⟩ : ∃ k, places + 1 - (d :: ds).length = k + 1 :=
      ⟨places - (d :: ds).length, by omega⟩
    have htotal : (List.replicate (k + 1) 0 ++ d :: ds).length - places = 1 := by
      simp only [List.length_append, List.length_replicate]
      omega
    rw [if_pos hlen, hk, htotal]
    have htake : (List.replicate (k + 1) 0 ++ d :: ds).take 1 = [0] := by
      simp [List.replicate_succ]
    have hdrop : (List.replicate (k + 1) 0 ++ d :: ds).drop 1 =
        List.replicate k 0 ++ d :: ds := by
      simp [List.replicate_succ]
    rw [htake, hdrop]
    have hzero : ([0] : List Nat).dropWhile (· == 0) = [] := rfl
    rw [hzero, List.nil_append, dropWhile_zero_replicate, dropWhile_zero_cons hd]
    simp only [ne_eq, not_true_eq_false, if_false, List.length_append,
      List.length_replicate, Prod.mk.injEq, and_true]
    omega
  · rw [if_neg hlen]
    obtain ⟨k, hk⟩ : ∃ k, (d :: ds).length - places = k + 1 :=
      ⟨(d :: ds).length - places - 1, by omega⟩
    have htake : (d :: ds).take ((d :: ds).length - places) = d :: ds.take k := by
      rw [hk, List.take_succ_cons]
    have hjoin : d :: ds.take k ++ (d :: ds).drop ((d :: ds).length - places) = d :: ds := by
      rw [← htake, List.take_append_drop]
    rw [htake, dropWhile_zero_cons hd, hjoin, dropWhile_zero_cons hd]
    have hlength : (d :: ds.take k).length = (d :: ds).length - places := by
      rw [← htake, List.length_take]
      omega
    simp only [ne_eq, reduceCtorEq, not_false_eq_true, if_true, hlength,
      Prod.mk.injEq, and_true]
    omega

/-- What is written for the digits of a number that is not zero. -/
def magnitudeKey (places magnitude : Nat) : Bytes :=
  writeKeyInteger ((decimal magnitude).length - places) 2 ++
    (terminated (dropZeros (decimal magnitude))).map UInt8.ofNat

theorem lt_of_mem_terminated_decimal {n d : Nat}
    (h : d ∈ terminated (dropZeros (decimal n))) : d < 256 := by
  rw [terminated, List.mem_append, List.mem_singleton, List.mem_map] at h
  obtain ⟨e, he, rfl⟩ | rfl := h
  · have hmem : e ∈ decimal n := (prefix_dropZeros _).subset he
    have := lt_of_mem_fixedWidth (show 0 < 10 by omega) hmem
    omega
  · omega

theorem before_magnitudeKey {places m n : Nat} (h : m < n)
    (hplaces : places < 2 ^ 14) (hn : n < 10 ^ (maxNumericPrecision + places)) :
    Before (magnitudeKey places m) (magnitudeKey places n) := by
  have hlog : Nat.log 10 m ≤ Nat.log 10 n := Nat.log_mono_right h.le
  have hsmall : Nat.log 10 n < 1000 + places :=
    Nat.log_lt_of_lt_pow (by omega) hn
  unfold magnitudeKey
  obtain hlt | heq := lt_or_eq_of_le hlog
  · refine ((agrees_writeKeyInteger (by omega) ?_ ?_).1 ?_).append _ _
    · rw [length_decimal]
      omega
    · rw [length_decimal]
      omega
    · rw [Value.compareInts_eq_isLess, length_decimal, length_decimal]
      omega
  · have hlen : (decimal m).length = (decimal n).length := by
      rw [length_decimal, length_decimal, heq]
    rw [hlen]
    refine (Before.map ?_ (before_terminated_dropZeros (before_decimal h hlen))).prepend _
    intro x _ y hy hxy
    exact ofNat_lt_ofNat (lt_of_mem_terminated_decimal hy) hxy

/-- The digits of a number, up to one more place than two numbers of its scale
can be apart. -/
def keyMagnitude (x : Numeric) : Nat :=
  x.numerator.natAbs * 10 ^ (2 * x.typ.scale + 3) / x.denominator.toNat

theorem writeKeyNumeric_eq {x : Numeric} (h : 0 < keyMagnitude x) :
    writeKeyNumeric x =
      if x.isZero then [1]
      else if x.isNegative then
        0 :: (magnitudeKey (2 * x.typ.scale + 3) (keyMagnitude x)).map (~~~ ·)
      else 2 :: magnitudeKey (2 * x.typ.scale + 3) (keyMagnitude x) := by
  have hdigits := significantDigits_eq (2 * x.typ.scale + 3) h
  unfold writeKeyNumeric
  simp only [← keyMagnitude.eq_def, hdigits, magnitudeKey]

theorem Numeric.Fits.denominator_toNat {t : DataType} {x : Numeric} (h : x.Fits t) :
    ((x.denominator.toNat : Nat) : Int) = x.denominator ∧
      0 < x.denominator.toNat ∧ x.denominator.toNat < 10 ^ (t.scale + 1) := by
  have hd := h.denominator
  have hcast : ((10 ^ (t.scale + 1) : Nat) : Int) = 10 ^ (t.scale + 1) := by
    push_cast
    rfl
  omega

/-- Numbers that are not equal differ in the digits that are written. -/
theorem div_lt_div_of_mul_lt {a b dx dy P : Nat} (hdx : 0 < dx) (hdy : 0 < dy)
    (hP : dx * dy ≤ P) (h : a * dy < b * dx) : a * P / dx < b * P / dy := by
  have hq : a * P / dx * dx ≤ a * P := Nat.div_mul_le_self _ _
  have hscaled : (a * P / dx + 1) * dy * dx ≤ b * P * dx := by
    calc (a * P / dx + 1) * dy * dx = (a * P / dx * dx) * dy + dx * dy := by ring
      _ ≤ a * P * dy + dx * dy := by
        have := Nat.mul_le_mul_right dy hq
        omega
      _ ≤ (a * dy + 1) * P := by
        have : (a * dy + 1) * P = a * P * dy + P := by ring
        omega
      _ ≤ b * dx * P := Nat.mul_le_mul_right P h
      _ = b * P * dx := by ring
  have hle : (a * P / dx + 1) * dy ≤ b * P := Nat.le_of_mul_le_mul_right hscaled hdx
  exact (Nat.le_div_iff_mul_le hdy).mpr hle

theorem div_eq_div_of_mul_eq {a b dx dy P : Nat} (hdx : 0 < dx) (hdy : 0 < dy)
    (h : a * dy = b * dx) : a * P / dx = b * P / dy := by
  rw [← Nat.mul_div_mul_right (a * P) dx hdy, ← Nat.mul_div_mul_right (b * P) dy hdx]
  congr 1
  · calc a * P * dy = a * dy * P := by ring
      _ = b * P * dx := by rw [h]; ring
  · ring

section

variable {t : DataType} {x y : Numeric}

theorem places_lt (hx : x.Fits t) : 2 * x.typ.scale + 3 < 2 ^ 14 := by
  have h := hx.scale
  simp only [maxNumericPrecision] at h
  omega

theorem keyMagnitude_pos (hx : x.Fits t) (hzero : x.numerator ≠ 0) :
    0 < keyMagnitude x := by
  obtain ⟨-, hpos, hlt⟩ := hx.denominator_toNat
  have hscale := hx.scale.1
  refine Nat.div_pos ?_ hpos
  have hpow : 10 ^ (t.scale + 1) ≤ 10 ^ (2 * x.typ.scale + 3) :=
    Nat.pow_le_pow_right (by omega) (by omega)
  have hone : 1 * 10 ^ (2 * x.typ.scale + 3) ≤
      x.numerator.natAbs * 10 ^ (2 * x.typ.scale + 3) :=
    Nat.mul_le_mul_right _ (by omega)
  omega

theorem keyMagnitude_lt_pow (hx : x.Fits t) :
    keyMagnitude x < 10 ^ (maxNumericPrecision + (2 * x.typ.scale + 3)) := by
  obtain ⟨hcast, hpos, -⟩ := hx.denominator_toNat
  have hnum := hx.numerator
  rw [← hcast] at hnum
  have hnum' : x.numerator.natAbs < 10 ^ maxNumericPrecision * x.denominator.toNat := by
    exact_mod_cast hnum
  unfold keyMagnitude
  generalize 2 * x.typ.scale + 3 = places
  rw [Nat.div_lt_iff_lt_mul hpos, Nat.pow_add]
  calc x.numerator.natAbs * 10 ^ places
      < 10 ^ maxNumericPrecision * x.denominator.toNat * 10 ^ places :=
        Nat.mul_lt_mul_of_pos_right hnum' (Nat.pow_pos (by omega))
    _ = 10 ^ maxNumericPrecision * 10 ^ places * x.denominator.toNat := by ring

theorem keyMagnitude_lt (hx : x.Fits t) (hy : y.Fits t)
    (h : x.numerator.natAbs * y.denominator.toNat <
      y.numerator.natAbs * x.denominator.toNat) :
    keyMagnitude x < keyMagnitude y := by
  obtain ⟨-, hxpos, hxlt⟩ := hx.denominator_toNat
  obtain ⟨-, hypos, hylt⟩ := hy.denominator_toNat
  have hscale : x.typ.scale = y.typ.scale := by rw [hx.scale.1, hy.scale.1]
  have hP : x.denominator.toNat * y.denominator.toNat ≤
      10 ^ (2 * x.typ.scale + 3) := by
    calc x.denominator.toNat * y.denominator.toNat
        ≤ 10 ^ (t.scale + 1) * 10 ^ (t.scale + 1) := Nat.mul_le_mul hxlt.le hylt.le
      _ = 10 ^ (2 * t.scale + 2) := by rw [← Nat.pow_add]; congr 1; omega
      _ ≤ 10 ^ (2 * x.typ.scale + 3) := by
        have := hx.scale.1
        exact Nat.pow_le_pow_right (by omega) (by omega)
  rw [keyMagnitude, keyMagnitude, ← hscale]
  exact div_lt_div_of_mul_lt hxpos hypos hP h

theorem keyMagnitude_eq (hx : x.Fits t) (hy : y.Fits t)
    (h : x.numerator.natAbs * y.denominator.toNat =
      y.numerator.natAbs * x.denominator.toNat) :
    keyMagnitude x = keyMagnitude y := by
  obtain ⟨-, hxpos, -⟩ := hx.denominator_toNat
  obtain ⟨-, hypos, -⟩ := hy.denominator_toNat
  have hscale : x.typ.scale = y.typ.scale := by rw [hx.scale.1, hy.scale.1]
  rw [keyMagnitude, keyMagnitude, ← hscale]
  exact div_eq_div_of_mul_eq hxpos hypos h

theorem writeKeyNumeric_of_neg (hx : x.Fits t) (h : x.numerator < 0) :
    writeKeyNumeric x =
      0 :: (magnitudeKey (2 * x.typ.scale + 3) (keyMagnitude x)).map (~~~ ·) := by
  have hzero : x.isZero = false := by
    simp only [Numeric.isZero, beq_eq_false_iff_ne]
    omega
  rw [writeKeyNumeric_eq (keyMagnitude_pos hx (by omega)), hzero]
  simp [Numeric.isNegative, h]

theorem writeKeyNumeric_of_pos (hx : x.Fits t) (h : 0 < x.numerator) :
    writeKeyNumeric x = 2 :: magnitudeKey (2 * x.typ.scale + 3) (keyMagnitude x) := by
  have hzero : x.isZero = false := by
    simp only [Numeric.isZero, beq_eq_false_iff_ne]
    omega
  rw [writeKeyNumeric_eq (keyMagnitude_pos hx (by omega)), hzero]
  simp [Numeric.isNegative, not_lt.mpr h.le]

theorem writeKeyNumeric_of_zero (h : x.numerator = 0) : writeKeyNumeric x = [1] := by
  simp [writeKeyNumeric, Numeric.isZero, h]

theorem complement_lt_complement {a b : UInt8} (h : a < b) : ~~~b < ~~~a := by
  rw [UInt8.lt_iff_toNat_lt] at h ⊢
  have ha := a.toNat_lt
  have hb := b.toNat_lt
  rw [UInt8.toNat_not, UInt8.toNat_not]
  simp only [UInt8.size]
  omega

/-- The absolute values of two numbers on the same side of zero. -/
theorem natAbs_mul_lt (hx : x.Fits t) (hy : y.Fits t)
    (h : x.numerator * y.denominator < y.numerator * x.denominator) :
    (0 ≤ x.numerator → x.numerator.natAbs * y.denominator.toNat <
      y.numerator.natAbs * x.denominator.toNat) ∧
    (y.numerator ≤ 0 → y.numerator.natAbs * x.denominator.toNat <
      x.numerator.natAbs * y.denominator.toNat) := by
  have hxd := hx.denominator.1
  have hyd := hy.denominator.1
  refine ⟨fun hnonneg => ?_, fun hnonpos => ?_⟩
  · have hpos : 0 < y.numerator * x.denominator :=
      lt_of_le_of_lt (Int.mul_nonneg hnonneg hyd.le) h
    have hy' : 0 < y.numerator := pos_of_mul_pos_left hpos hxd.le
    zify
    rw [Int.toNat_of_nonneg hxd.le, Int.toNat_of_nonneg hyd.le, abs_of_nonneg hnonneg,
      abs_of_pos hy']
    exact h
  · have hneg : x.numerator * y.denominator < 0 :=
      lt_of_lt_of_le h (Int.mul_nonpos_of_nonpos_of_nonneg hnonpos hxd.le)
    have hx' : x.numerator < 0 := by
      by_contra hge
      have := Int.mul_nonneg (not_lt.mp hge) hyd.le
      omega
    zify
    rw [Int.toNat_of_nonneg hxd.le, Int.toNat_of_nonneg hyd.le, abs_of_nonpos hnonpos,
      abs_of_neg hx', Int.neg_mul, Int.neg_mul]
    omega

theorem before_writeKeyNumeric (hx : x.Fits t) (hy : y.Fits t)
    (h : x.numerator * y.denominator < y.numerator * x.denominator) :
    Before (writeKeyNumeric x) (writeKeyNumeric y) := by
  have hxd := hx.denominator.1
  have hyd := hy.denominator.1
  have hscale : x.typ.scale = y.typ.scale := by rw [hx.scale.1, hy.scale.1]
  have habs := natAbs_mul_lt hx hy h
  obtain hxn | hxz | hxp := lt_trichotomy x.numerator 0
  · rw [writeKeyNumeric_of_neg hx hxn]
    obtain hyn | hyz | hyp := lt_trichotomy y.numerator 0
    · rw [writeKeyNumeric_of_neg hy hyn, ← hscale]
      have hlt := keyMagnitude_lt hy hx (habs.2 hyn.le)
      have hmag := before_magnitudeKey hlt (places_lt hx) (keyMagnitude_lt_pow hx)
      exact (hmag.map_of_reverses fun _ _ => complement_lt_complement).cons 0
    · rw [writeKeyNumeric_of_zero hyz]
      exact Before.of_heads (by decide) _ _
    · rw [writeKeyNumeric_of_pos hy hyp]
      exact Before.of_heads (by decide) _ _
  · have hyp : 0 < y.numerator := by
      rw [hxz, Int.zero_mul] at h
      exact pos_of_mul_pos_left h hxd.le
    rw [writeKeyNumeric_of_zero hxz, writeKeyNumeric_of_pos hy hyp]
    exact Before.of_heads (by decide) _ _
  · have hyp : 0 < y.numerator := by
      have hpos := lt_trans (Int.mul_pos hxp hyd) h
      exact pos_of_mul_pos_left hpos hxd.le
    rw [writeKeyNumeric_of_pos hx hxp, writeKeyNumeric_of_pos hy hyp, hscale]
    have hlt := keyMagnitude_lt hx hy (habs.1 hxp.le)
    have hmag := before_magnitudeKey hlt (places_lt hy) (keyMagnitude_lt_pow hy)
    exact hmag.cons 2

theorem writeKeyNumeric_congr (hx : x.Fits t) (hy : y.Fits t)
    (h : x.numerator * y.denominator = y.numerator * x.denominator) :
    writeKeyNumeric x = writeKeyNumeric y := by
  have hxd := hx.denominator.1
  have hyd := hy.denominator.1
  have hscale : x.typ.scale = y.typ.scale := by rw [hx.scale.1, hy.scale.1]
  have hmag : keyMagnitude x = keyMagnitude y := by
    refine keyMagnitude_eq hx hy ?_
    have habs := congrArg Int.natAbs h
    rw [Int.natAbs_mul, Int.natAbs_mul] at habs
    rwa [show x.denominator.toNat = x.denominator.natAbs by omega,
      show y.denominator.toNat = y.denominator.natAbs by omega]
  obtain hxn | hxz | hxp := lt_trichotomy x.numerator 0
  · have hyn : y.numerator < 0 := by
      have hneg := Int.mul_neg_of_neg_of_pos hxn hyd
      by_contra hge
      have := Int.mul_nonneg (not_lt.mp hge) hxd.le
      omega
    rw [writeKeyNumeric_of_neg hx hxn, writeKeyNumeric_of_neg hy hyn, hscale, hmag]
  · have hyz : y.numerator = 0 := by
      rw [hxz, Int.zero_mul] at h
      obtain hzero | hzero := Int.mul_eq_zero.mp h.symm
      · exact hzero
      · omega
    rw [writeKeyNumeric_of_zero hxz, writeKeyNumeric_of_zero hyz]
  · have hyp : 0 < y.numerator := by
      have hpos := Int.mul_pos hxp hyd
      rw [h] at hpos
      exact pos_of_mul_pos_left hpos hxd.le
    rw [writeKeyNumeric_of_pos hx hxp, writeKeyNumeric_of_pos hy hyp, hscale, hmag]

theorem agrees_writeKeyNumeric (hx : x.Fits t) (hy : y.Fits t) :
    Agrees (x.compare y) (writeKeyNumeric x) (writeKeyNumeric y) := by
  rw [Numeric.compare_eq hx.denominator.1]
  obtain hlt | heq | hgt := lt_trichotomy (x.numerator * y.denominator)
    (y.numerator * x.denominator)
  · rw [if_pos hlt]
    exact ⟨fun _ => before_writeKeyNumeric hx hy hlt, by simp, by simp⟩
  · rw [if_neg heq.not_lt, if_neg heq.not_gt]
    exact ⟨by simp, fun _ => writeKeyNumeric_congr hx hy heq, by simp⟩
  · rw [if_neg (not_lt.mpr hgt.le), if_pos hgt]
    exact ⟨by simp, by simp, fun _ => before_writeKeyNumeric hy hx hgt⟩

end

/-! ## Strings -/

/-- A string that does not end with a space. -/
def Trimmed (s : Bytes) : Prop := s.getLast? ≠ some 32

theorem Trimmed.tail {b : UInt8} {s : Bytes} (h : Trimmed (b :: s)) : Trimmed s := by
  cases s with
  | nil => simp [Trimmed]
  | cons c s => rwa [Trimmed, List.getLast?_cons_cons] at h

theorem Trimmed.tail_ne_nil {s : Bytes} (h : Trimmed (32 :: s)) : s ≠ [] := by
  rintro rfl
  exact h rfl

theorem writeKeyCharacters_cons (b : UInt8) (s : Bytes) :
    ∃ t, writeKeyCharacters (b :: s) = b :: t := by
  rw [writeKeyCharacters]
  split
  · next h => exact ⟨_, by rw [h]⟩
  · exact ⟨_, rfl⟩

theorem padTo_succ_nil (n : Nat) : Value.padTo (n + 1) [] = 32 :: Value.padTo n [] := by
  simp [Value.padTo, List.replicate_succ]

theorem padTo_succ_cons (n : Nat) (b : UInt8) (s : Bytes) :
    Value.padTo (n + 1) (b :: s) = b :: Value.padTo n s := by
  simp [Value.padTo]

/-- The byte after a space says where spaces alone would be sorted. -/
theorem lt_head_dropWhile {s : Bytes} (h : Trimmed s) (hs : s ≠ []) {n : Nat}
    (hn : s.length ≤ n) :
    (32 < (s.dropWhile (· == 32)).headD 0 ∧ Value.padTo n [] < Value.padTo n s) ∨
      (¬32 < (s.dropWhile (· == 32)).headD 0 ∧
        Value.padTo n s < Value.padTo n []) := by
  induction s generalizing n with
  | nil => exact absurd rfl hs
  | cons c s ih =>
      cases n with
      | zero => simp at hn
      | succ n =>
          rw [padTo_succ_nil, padTo_succ_cons, List.cons_lt_cons_iff,
            List.cons_lt_cons_iff]
          by_cases hc : c = 32
          · subst hc
            have hs' := h.tail_ne_nil
            have htail := ih h.tail hs' (by simpa using hn)
            rw [List.dropWhile_cons_of_pos (by rfl)]
            simpa using htail
          · rw [List.dropWhile_cons_of_neg (by simpa using hc), List.headD_cons]
            obtain hlt | heq | hgt := lt_trichotomy c 32
            · exact .inr ⟨not_lt.mpr hlt.le, .inl hlt⟩
            · exact absurd heq hc
            · exact .inl ⟨hgt, .inl hgt⟩

private theorem before_spaces_left {s : Bytes} (h : Trimmed s) (hs : s ≠ []) {n : Nat}
    (hn : s.length ≤ n) (hlt : Value.padTo n [] < Value.padTo n s) :
    Before [32, 1] (writeKeyCharacters (32 :: s)) := by
  obtain ⟨hhead, -⟩ | ⟨-, hgt⟩ := lt_head_dropWhile h hs hn
  · rw [writeKeyCharacters, if_pos rfl, if_pos hhead]
    exact (Before.of_heads (by decide) _ _).cons 32
  · exact absurd hlt (not_lt.mpr hgt.le)

private theorem before_spaces_right {s : Bytes} (h : Trimmed s) (hs : s ≠ []) {n : Nat}
    (hn : s.length ≤ n) (hlt : Value.padTo n s < Value.padTo n []) :
    Before (writeKeyCharacters (32 :: s)) [32, 1] := by
  obtain ⟨-, hgt⟩ | ⟨hhead, -⟩ := lt_head_dropWhile h hs hn
  · exact absurd hlt (not_lt.mpr hgt.le)
  · rw [writeKeyCharacters, if_pos rfl, if_neg hhead]
    exact (Before.of_heads (by decide) _ _).cons 32

/-- Two strings that both continue after a space. -/
private theorem before_after_space {s t : Bytes} (hs : Trimmed s) (hs' : s ≠ [])
    (ht : Trimmed t) (ht' : t ≠ []) {n : Nat} (hsn : s.length ≤ n) (htn : t.length ≤ n)
    (hlt : Value.padTo n s < Value.padTo n t)
    (hrest : Before (writeKeyCharacters s) (writeKeyCharacters t)) :
    Before (writeKeyCharacters (32 :: s)) (writeKeyCharacters (32 :: t)) := by
  have hls := lt_head_dropWhile hs hs' hsn
  have hlt' := lt_head_dropWhile ht ht' htn
  rw [writeKeyCharacters, writeKeyCharacters, if_pos rfl, if_pos rfl]
  obtain ⟨hshead, hsgt⟩ | ⟨hshead, hslt⟩ := hls
  · obtain ⟨hthead, -⟩ | ⟨-, htlt⟩ := hlt'
    · rw [if_pos hshead, if_pos hthead]
      exact (hrest.cons 2).cons 32
    · exact absurd (lt_trans hsgt hlt) (not_lt.mpr htlt.le)
  · obtain ⟨hthead, -⟩ | ⟨hthead, -⟩ := hlt'
    · rw [if_neg hshead, if_pos hthead]
      exact (Before.of_heads (by decide) _ _).cons 32
    · rw [if_neg hshead, if_neg hthead]
      exact (hrest.cons 0).cons 32

theorem before_writeKeyCharacters {s t : Bytes} (hs : Trimmed s) (ht : Trimmed t)
    {n : Nat} (hsn : s.length ≤ n) (htn : t.length ≤ n)
    (h : Value.padTo n s < Value.padTo n t) :
    Before (writeKeyCharacters s) (writeKeyCharacters t) := by
  induction n generalizing s t with
  | zero =>
      have hs0 : s = [] := List.eq_nil_of_length_eq_zero (by omega)
      have ht0 : t = [] := List.eq_nil_of_length_eq_zero (by omega)
      rw [hs0, ht0] at h
      exact absurd h (lt_irrefl _)
  | succ n ih =>
      cases s with
      | nil =>
          cases t with
          | nil => exact absurd h (lt_irrefl _)
          | cons c t =>
              rw [padTo_succ_nil, padTo_succ_cons, List.cons_lt_cons_iff] at h
              obtain hlt | ⟨rfl, hlt⟩ := h
              · obtain ⟨t', ht'⟩ := writeKeyCharacters_cons c t
                rw [ht', writeKeyCharacters]
                exact Before.of_heads hlt _ _
              · have hne := ht.tail_ne_nil
                exact before_spaces_left ht.tail hne (by simpa using htn) hlt
      | cons b s =>
          cases t with
          | nil =>
              rw [padTo_succ_nil, padTo_succ_cons, List.cons_lt_cons_iff] at h
              obtain hlt | ⟨rfl, hlt⟩ := h
              · obtain ⟨s', hs'⟩ := writeKeyCharacters_cons b s
                rw [hs', writeKeyCharacters]
                exact Before.of_heads hlt _ _
              · have hne := hs.tail_ne_nil
                exact before_spaces_right hs.tail hne (by simpa using hsn) hlt
          | cons c t =>
              rw [padTo_succ_cons, padTo_succ_cons, List.cons_lt_cons_iff] at h
              obtain hlt | ⟨rfl, hlt⟩ := h
              · obtain ⟨s', hs'⟩ := writeKeyCharacters_cons b s
                obtain ⟨t', ht'⟩ := writeKeyCharacters_cons c t
                rw [hs', ht']
                exact Before.of_heads hlt _ _
              · simp only [List.length_cons, Nat.add_le_add_iff_right] at hsn htn
                by_cases hb : b = 32
                · subst hb
                  have hsne := hs.tail_ne_nil
                  have htne := ht.tail_ne_nil
                  exact before_after_space hs.tail hsne ht.tail htne hsn
                    htn hlt (ih hs.tail ht.tail hsn htn hlt)
                · rw [writeKeyCharacters, writeKeyCharacters, if_neg hb, if_neg hb]
                  exact (ih hs.tail ht.tail hsn htn hlt).cons b

theorem trimmed_trimRight (s : Bytes) : Trimmed (trimRight s) := by
  unfold Trimmed trimRight
  rw [List.getLast?_reverse]
  cases h : s.reverse.dropWhile (· == 32) with
  | nil => simp
  | cons c l =>
      have hne : s.reverse.dropWhile (· == 32) ≠ [] := by simp [h]
      have hhead := List.head_dropWhile_not (· == (32 : UInt8)) hne
      simp only [h, List.head_cons] at hhead
      simpa using hhead

theorem trimRight_append_spaces (s : Bytes) :
    s = trimRight s ++ List.replicate (s.length - (trimRight s).length) 32 := by
  have hsplit := List.takeWhile_append_dropWhile (p := (· == (32 : UInt8))) (l := s.reverse)
  have hspaces : s.reverse.takeWhile (· == 32) =
      List.replicate (s.reverse.takeWhile (· == 32)).length 32 := by
    refine List.eq_replicate_of_mem fun b hb => ?_
    simpa using List.mem_takeWhile_imp hb
  have hlen : s.length = (s.reverse.takeWhile (· == 32)).length +
      (trimRight s).length := by
    have := congrArg List.length hsplit
    simp only [List.length_append, List.length_reverse] at this
    simp only [trimRight, List.length_reverse]
    omega
  have hreverse : s = trimRight s ++ (s.reverse.takeWhile (· == 32)).reverse := by
    rw [trimRight, ← List.reverse_append, hsplit, List.reverse_reverse]
  rw [hlen, Nat.add_sub_cancel]
  conv_lhs => rw [hreverse]
  rw [hspaces]
  simp

theorem length_trimRight_le (s : Bytes) : (trimRight s).length ≤ s.length := by
  have h := congrArg List.length (trimRight_append_spaces s)
  simp only [List.length_append, List.length_replicate] at h
  omega

theorem padTo_trimRight {s : Bytes} {n : Nat} (h : s.length ≤ n) :
    Value.padTo n (trimRight s) = Value.padTo n s := by
  have hle := length_trimRight_le s
  conv_rhs => rw [trimRight_append_spaces s]
  simp only [Value.padTo, List.append_assoc, List.length_append, List.length_replicate]
  rw [List.replicate_append_replicate]
  congr 2
  omega

theorem writeKeyString_congr {s t : Bytes} {n : Nat} (hsn : s.length ≤ n)
    (htn : t.length ≤ n) (h : Value.padTo n s = Value.padTo n t) :
    trimRight s = trimRight t := by
  have htrim : ∀ u : Bytes, u.length ≤ n → trimRight (Value.padTo n u) = trimRight u := by
    intro u _
    simp only [trimRight, Value.padTo, List.reverse_append, List.reverse_replicate]
    congr 1
    generalize n - u.length = k
    induction k with
    | zero => rfl
    | succ k ih =>
        rw [List.replicate_succ, List.cons_append, List.dropWhile_cons_of_pos (by rfl), ih]
  rw [← htrim s hsn, ← htrim t htn, h]

theorem agrees_writeKeyString (s t : Bytes) :
    Agrees (Value.compareStrings s t) (writeKeyString s) (writeKeyString t) := by
  have hsn : s.length ≤ max s.length t.length := Nat.le_max_left _ _
  have htn : t.length ≤ max s.length t.length := Nat.le_max_right _ _
  have hbefore : ∀ u v : Bytes, u.length ≤ max s.length t.length →
      v.length ≤ max s.length t.length →
      Value.padTo (max s.length t.length) u < Value.padTo (max s.length t.length) v →
      Before (writeKeyString u) (writeKeyString v) := by
    intro u v hu hv huv
    rw [← padTo_trimRight hu, ← padTo_trimRight hv] at huv
    exact before_writeKeyCharacters (trimmed_trimRight u) (trimmed_trimRight v)
      (le_trans (length_trimRight_le u) hu) (le_trans (length_trimRight_le v) hv) huv
  unfold Value.compareStrings
  simp only
  obtain hlt | heq | hgt := lt_trichotomy (Value.padTo (max s.length t.length) s)
    (Value.padTo (max s.length t.length) t)
  · rw [if_pos hlt]
    exact ⟨fun _ => hbefore s t hsn htn hlt, by simp, by simp⟩
  · rw [if_neg heq.not_lt, if_neg heq.not_gt]
    refine ⟨by simp, fun _ => ?_, by simp⟩
    rw [writeKeyString, writeKeyString, writeKeyString_congr hsn htn heq]
  · rw [if_neg (not_lt.mpr hgt.le), if_pos hgt]
    exact ⟨by simp, by simp, fun _ => hbefore t s htn hsn hgt⟩

/-! ## Values of one type -/

/-- The types that a content can have. -/
def Content.hasKind : Content → SqlType → Bool
  | .bool _, typ => typ == .boolean
  | .int _, typ => typ.isInteger
  | .f64 _, typ => typ.isApproximate
  | .string _, typ => typ.isString
  | .time _, typ => typ.isDatetime
  | .numeric _, typ => typ.isExactDecimal

theorem Content.Fits.hasKind {t : DataType} {c : Content} (h : c.Fits t) :
    c.hasKind t.typ := by
  cases c with
  | bool x => simpa [Content.hasKind, Content.Fits] using h
  | int x => exact h.1
  | f64 x =>
      obtain h | h := h
      · simp [Content.hasKind, h, SqlType.isApproximate]
      · simp [Content.hasKind, h.1, SqlType.isApproximate]
  | string x => exact h
  | time x => exact h.1
  | numeric x => exact h.typ

namespace Value

def isNaN (x : Value) : Bool :=
  match x.v with
  | some (.f64 x) => x.isNaN
  | _ => false

theorem exists_content {x : Value} (h : x.isNull = false) :
    ∃ c, x.v = some c ∧ c.Fits x.typ := by
  unfold isNull at h
  cases hv : x.v with
  | none => simp [hv] at h
  | some c => exact ⟨c, rfl, x.fits c (by rw [hv]; rfl)⟩

theorem intValue_bounds {x : Value} (hnull : x.isNull = false)
    (htyp : x.typ.typ.isInteger) :
    -2 ^ (x.typ.typ.intBits - 1) ≤ x.intValue ∧
      x.intValue < 2 ^ (x.typ.typ.intBits - 1) := by
  obtain ⟨c, hc, hfits⟩ := exists_content hnull
  have hkind := hfits.hasKind
  unfold intValue
  rw [hc]
  cases c
  case int n => exact hfits.2
  all_goals
    revert hkind htyp
    cases x.typ.typ <;> simp [Content.hasKind, SqlType.isInteger, SqlType.isApproximate,
      SqlType.isString, SqlType.isDatetime, SqlType.isExactDecimal]

theorem numericValue_fits {x : Value} (hnull : x.isNull = false)
    (htyp : x.typ.typ.isExactDecimal) : x.numericValue.Fits x.typ := by
  obtain ⟨c, hc, hfits⟩ := exists_content hnull
  have hkind := hfits.hasKind
  unfold numericValue
  rw [hc]
  cases c
  case numeric n => exact hfits
  all_goals
    revert hkind htyp
    cases x.typ.typ <;> simp [Content.hasKind, SqlType.isInteger, SqlType.isApproximate,
      SqlType.isString, SqlType.isDatetime, SqlType.isExactDecimal]

theorem exists_time {x : Value} (hnull : x.isNull = false)
    (htyp : x.typ.typ.isDatetime) :
    ∃ t, x.timeValue? = some t ∧ t.typ.typ = x.typ.typ := by
  obtain ⟨c, hc, hfits⟩ := exists_content hnull
  have hkind := hfits.hasKind
  unfold timeValue?
  rw [hc]
  cases c
  case time t => exact ⟨t, rfl, hfits.2⟩
  all_goals
    revert hkind htyp
    cases x.typ.typ <;> simp [Content.hasKind, SqlType.isInteger, SqlType.isApproximate,
      SqlType.isString, SqlType.isDatetime, SqlType.isExactDecimal]

theorem timeValue?_eq_none {x : Value} (htyp : x.typ.typ.isDatetime = false) :
    x.timeValue? = none := by
  unfold timeValue?
  cases hv : x.v with
  | none => rfl
  | some c =>
      have hfits := x.fits c (by rw [hv]; rfl)
      cases c
      case time t =>
        rw [hfits.1] at htyp
        simp at htyp
      all_goals rfl

theorem asReal_f64Value {x : Value} (hnull : x.isNull = false)
    (htyp : x.typ.typ = .real) (hnan : x.isNaN = false) :
    asReal x.f64Value = x.f64Value := by
  obtain ⟨c, hc, hfits⟩ := exists_content hnull
  have hkind := hfits.hasKind
  unfold isNaN at hnan
  unfold f64Value
  rw [hc] at hnan ⊢
  cases c
  case f64 y => simpa [Content.Fits, htyp, show y.isNaN = false from hnan] using hfits
  all_goals
    rw [htyp] at hkind
    simp [Content.hasKind, SqlType.isInteger, SqlType.isString, SqlType.isDatetime,
      SqlType.isExactDecimal] at hkind

theorem isNaN_f64Value {x : Value} (hnan : x.isNaN = false) :
    x.f64Value.isNaN = false := by
  unfold isNaN at hnan
  unfold f64Value
  split
  · next h => rwa [h] at hnan
  · simp [BinaryFloat.isNaN, magnitude_ofInt_zero]

end Value

theorem Numeric.Fits.congr {t u : DataType} {x : Numeric} (h : x.Fits t)
    (htyp : u.typ.isExactDecimal) (hscale : t.scale = u.scale) : x.Fits u :=
  ⟨htyp, hscale ▸ h.scale, hscale ▸ h.denominator, h.numerator⟩

section

variable {x y : Value} {tz : TimeZone} {c : CompareResult}

private theorem agrees_int (size : Nat) (hsize : 0 < size ∧ size ≤ 8)
    (hx : x.isNull = false) (hy : y.isNull = false) (htyp : x.typ.typ = y.typ.typ)
    (hint : x.typ.typ.isInteger) (hbits : x.typ.typ.intBits = size * 8)
    (h : Value.compare tz x y = .ok c) :
    Agrees c (writeKeyInteger x.intValue size) (writeKeyInteger y.intValue size) := by
  have hxb := Value.intValue_bounds hx hint
  have hyb := Value.intValue_bounds hy (htyp ▸ hint)
  rw [← htyp] at hyb
  rw [hbits] at hxb hyb
  have hcmp : Value.compare tz x y = .ok (Value.compareInts x.intValue y.intValue) := by
    unfold Value.compare Value.compareNumbers
    rw [hx, hy, ← htyp]
    revert hint
    cases x.typ.typ <;> simp [SqlType.isInteger, SqlType.isNumber, SqlType.isExactDecimal]
  rw [h] at hcmp
  rw [Except.ok.inj hcmp]
  exact agrees_writeKeyInteger hsize hxb hyb

private theorem agrees_numeric (hx : x.isNull = false) (hy : y.isNull = false)
    (htyp : x.typ.typ = y.typ.typ) (hscale : x.typ.scale = y.typ.scale)
    (hdec : x.typ.typ.isExactDecimal) (h : Value.compare tz x y = .ok c) :
    Agrees c (writeKeyNumeric x.numericValue) (writeKeyNumeric y.numericValue) := by
  have hxf := Value.numericValue_fits hx hdec
  have hyf := Value.numericValue_fits hy (htyp ▸ hdec)
  have hcmp : Value.compare tz x y = .ok (x.numericValue.compare y.numericValue) := by
    unfold Value.compare Value.compareNumbers
    rw [hx, hy, ← htyp]
    revert hdec
    cases x.typ.typ <;> simp [SqlType.isNumber, SqlType.isExactDecimal]
  rw [h] at hcmp
  rw [Except.ok.inj hcmp]
  exact agrees_writeKeyNumeric hxf (hyf.congr hdec hscale.symm)

private theorem compare_approximate (hx : x.isNull = false) (hy : y.isNull = false)
    (htyp : x.typ.typ = y.typ.typ) (hdec : x.typ.typ.isApproximate) :
    Value.compare tz x y = .ok (compareF64 x.f64Value y.f64Value) := by
  unfold Value.compare Value.compareNumbers Value.asF64
  rw [hx, hy, ← htyp]
  revert hdec
  cases x.typ.typ <;> simp [SqlType.isNumber, SqlType.isExactDecimal,
    SqlType.isApproximate, SqlType.isInteger]

private theorem compare_string (hx : x.isNull = false) (hy : y.isNull = false)
    (htyp : x.typ.typ = y.typ.typ) (hstr : x.typ.typ.isString) :
    Value.compare tz x y = .ok (Value.compareStrings x.stringValue y.stringValue) := by
  unfold Value.compare
  rw [hx, hy, ← htyp]
  revert hstr
  cases x.typ.typ <;> simp [SqlType.isNumber, SqlType.isString]

private theorem agrees_time (hx : x.isNull = false) (hy : y.isNull = false)
    (htyp : x.typ.typ = y.typ.typ) (hdt : x.typ.typ.isDatetime)
    (h : Value.compare tz x y = .ok c) :
    Agrees c (writeKeyValue x x.typ.typ) (writeKeyValue y x.typ.typ) := by
  obtain ⟨t, ht, htt⟩ := Value.exists_time hx hdt
  obtain ⟨u, hu, hut⟩ := Value.exists_time hy (htyp ▸ hdt)
  have hcmp : Value.compare tz x y = .ok (Value.compareDatetimes tz t u) := by
    unfold Value.compare
    rw [hx, hy, ← htyp, ht, hu]
    revert hdt
    cases x.typ.typ <;> simp [SqlType.isNumber, SqlType.isString, SqlType.isDatetime]
  have hkey : ∀ z : Value, ∀ w : Time, z.timeValue? = some w →
      writeKeyValue z x.typ.typ = writeKeyTime w x.typ.typ := by
    intro z w hw
    unfold writeKeyValue
    rw [hw]
    revert hdt
    cases x.typ.typ <;> simp [SqlType.isDatetime]
  rw [h] at hcmp
  rw [Except.ok.inj hcmp, hkey x t ht, hkey y u hu]
  unfold Value.compareDatetimes writeKeyTime
  rw [htt, hut, ← htyp]
  by_cases hzone : x.typ.typ.hasTimeZone = true
  · simp only [hzone, true_or, if_true]
    exact agrees_writeKeyInteger (by omega) (t.utcMicros_bounds _) (u.utcMicros_bounds _)
  · simp only [hzone, or_self, if_false, Bool.false_eq_true]
    exact agrees_writeKeyInteger (by omega) t.i64_bounds u.i64_bounds

private theorem agrees_boolean (hx : x.isNull = false) (hy : y.isNull = false)
    (htyp : x.typ.typ = y.typ.typ) (hbool : x.typ.typ = .boolean)
    (h : Value.compare tz x y = .ok c) :
    Agrees c (writeKeyValue x .boolean) (writeKeyValue y .boolean) := by
  have hnone : x.timeValue? = none :=
    Value.timeValue?_eq_none (by rw [hbool]; rfl)
  unfold Value.compare at h
  rw [hx, hy, ← htyp, hbool, hnone] at h
  simp only [Bool.false_eq_true, or_self, if_false, SqlType.isNumber, SqlType.isString,
    and_self, if_true, Except.ok.injEq] at h
  subst h
  unfold writeKeyValue
  cases x.boolValue <;> cases y.boolValue <;>
    simp only [Value.compareBooleans, Agrees, Bool.false_eq_true, if_false, if_true,
      and_false, and_self, reduceCtorEq, false_implies, true_and, and_true,
      true_implies, implies_true]
  · exact Before.of_heads (by decide) _ _
  · exact Before.of_heads (by decide) _ _

/-- The keys of values of one type sort like the values compare. -/
theorem agrees_writeKeyValue (hx : x.isNull = false) (hy : y.isNull = false)
    (hxn : x.isNaN = false) (hyn : y.isNaN = false) (htyp : x.typ.typ = y.typ.typ)
    (hscale : x.typ.typ.isExactDecimal → x.typ.scale = y.typ.scale)
    (h : Value.compare tz x y = .ok c) :
    Agrees c (writeKeyValue x x.typ.typ) (writeKeyValue y x.typ.typ) := by
  have hxf := Value.isNaN_f64Value hxn
  have hyf := Value.isNaN_f64Value hyn
  cases hkind : x.typ.typ with
  | boolean => exact agrees_boolean hx hy htyp hkind h
  | smallint =>
      exact agrees_int 2 (by omega) hx hy htyp (by rw [hkind]; rfl) (by rw [hkind]; rfl) h
  | integer =>
      exact agrees_int 4 (by omega) hx hy htyp (by rw [hkind]; rfl) (by rw [hkind]; rfl) h
  | bigint =>
      exact agrees_int 8 (by omega) hx hy htyp (by rw [hkind]; rfl) (by rw [hkind]; rfl) h
  | numeric | decimal =>
      have hdec : x.typ.typ.isExactDecimal := by rw [hkind]; rfl
      exact agrees_numeric hx hy htyp (hscale hdec) hdec h
  | doublePrecision =>
      rw [compare_approximate hx hy htyp (by rw [hkind]; rfl)] at h
      rw [← Except.ok.inj h]
      exact agrees_writeKeyFloat_eight hxf hyf
  | real =>
      have hxr := Value.asReal_f64Value hx hkind hxn
      have hyr := Value.asReal_f64Value hy (htyp ▸ hkind) hyn
      rw [compare_approximate hx hy htyp (by rw [hkind]; rfl)] at h
      rw [← Except.ok.inj h]
      exact agrees_writeKeyFloat_four hxf hyf hxr hyr
  | character =>
      rw [compare_string hx hy htyp (by rw [hkind]; rfl)] at h
      rw [← Except.ok.inj h]
      exact agrees_writeKeyString x.stringValue y.stringValue
  | varchar =>
      rw [compare_string hx hy htyp (by rw [hkind]; rfl)] at h
      rw [← Except.ok.inj h]
      exact agrees_writeKeyString x.stringValue y.stringValue
  | date | timeWithoutTimeZone | timeWithTimeZone | timestampWithoutTimeZone
  | timestampWithTimeZone =>
      rw [← hkind]
      exact agrees_time hx hy htyp (by rw [hkind]; rfl) h

end

end Vsql
