import Vsql.Foundation.BinaryFloat

/-!
# Quotients of integers

The quotient of two integers that were rounded to a binary format.  It never underflows,
because the integers are not small, but it is zero when only the divisor is too large for
the format.
-/

namespace Vsql.Foundation

namespace FloatFormat

variable {f : FloatFormat}

/-- Formats whose numbers reach past the digits of their fraction. -/
structure Wide (f : FloatFormat) : Prop where
  fraction : 1 ≤ f.fractionBits
  exponent : f.fractionBits + 2 ≤ 2 ^ (f.exponentBits - 1)

/-- The least integer that is rounded to infinity. -/
def overflow (f : FloatFormat) : Nat :=
  (2 ^ (f.fractionBits + 2) - 1) * 2 ^ (2 ^ (f.exponentBits - 1) - f.fractionBits - 2)

theorem le_roundMagnitude_iff {n d m : Nat} (hd : 0 < d) (hm : m ≤ f.infinity) :
    m ≤ f.roundMagnitude n d ↔ f.reaches n d m = true := by
  constructor
  · intro hle
    exact f.reaches_of_le hd hle (search_passes f.bits (by simp [reaches]))
  · intro hreaches
    have hlt : f.infinity < 2 ^ f.bits := BinaryFloat.infinity_lt
    exact le_search (fun _ _ => f.reaches_of_le hd) (by omega) hreaches

theorem two_pow_exponentBits (f : FloatFormat) :
    2 ^ f.exponentBits = 2 * 2 ^ (f.exponentBits - 1) := by
  rw [← Nat.pow_succ']
  congr 1
  have := f.exponentBits_pos
  omega

theorem units_infinity (f : FloatFormat) :
    f.units f.infinity = 2 ^ f.fractionBits * 2 ^ (2 ^ f.exponentBits - 2) := by
  have hexp := f.two_pow_exponentBits
  have hpos : 0 < 2 ^ (f.exponentBits - 1) := Nat.two_pow_pos _
  have hle : 2 ^ f.fractionBits ≤ f.infinity := Nat.le_mul_of_pos_left _ (by omega)
  have hdiv : f.infinity / 2 ^ f.fractionBits = 2 ^ f.exponentBits - 1 :=
    Nat.mul_div_cancel _ (Nat.two_pow_pos _)
  have hmod : f.infinity % 2 ^ f.fractionBits = 0 := Nat.mul_mod_left _ _
  rw [units, if_neg (by omega), hdiv, hmod]
  rfl

/-- The largest finite number. -/
theorem units_infinity_pred (h : f.Wide) :
    f.units (f.infinity - 1) =
      (2 ^ (f.fractionBits + 1) - 1) * 2 ^ (2 ^ f.exponentBits - 3) := by
  have hexp := f.two_pow_exponentBits
  have hlarge := h.exponent
  have hpow : 0 < 2 ^ f.fractionBits := Nat.two_pow_pos _
  have hsplit : f.infinity - 1 =
      2 ^ f.fractionBits * (2 ^ f.exponentBits - 2) + (2 ^ f.fractionBits - 1) := by
    obtain ⟨e, he⟩ : ∃ e, 2 ^ f.exponentBits = e + 2 := ⟨2 ^ f.exponentBits - 2, by omega⟩
    have hmul : (e + 1) * 2 ^ f.fractionBits = 2 ^ f.fractionBits * e + 2 ^ f.fractionBits := by
      ring
    rw [infinity, he, show e + 2 - 1 = e + 1 from rfl, Nat.add_sub_cancel, hmul]
    omega
  have hdiv : (f.infinity - 1) / 2 ^ f.fractionBits = 2 ^ f.exponentBits - 2 := by
    rw [hsplit, Nat.mul_add_div hpow, Nat.div_eq_of_lt (by omega), Nat.add_zero]
  have hmod : (f.infinity - 1) % 2 ^ f.fractionBits = 2 ^ f.fractionBits - 1 := by
    rw [hsplit, Nat.mul_add_mod, Nat.mod_eq_of_lt (by omega)]
  have hge : ¬f.infinity - 1 < 2 ^ f.fractionBits := by
    have hmul : 2 ^ f.fractionBits * 1 ≤ 2 ^ f.fractionBits * (2 ^ f.exponentBits - 2) :=
      Nat.mul_le_mul_left _ (by omega)
    omega
  rw [units, if_neg hge, hdiv, hmod, Nat.pow_succ]
  congr 1
  omega

theorem infinity_le_roundMagnitude_iff (h : f.Wide) (n : Nat) :
    f.infinity ≤ f.roundMagnitude n 1 ↔ f.overflow ≤ n := by
  have hexp := f.two_pow_exponentBits
  have hlarge := h.exponent
  have hfraction := h.fraction
  have hpos := f.infinity_pos
  have heven : f.infinity % 2 = 0 := by
    obtain ⟨k, hk⟩ : ∃ k, f.fractionBits = k + 1 := ⟨f.fractionBits - 1, by omega⟩
    rw [infinity, hk, Nat.pow_succ, ← Nat.mul_assoc]
    exact Nat.mul_mod_left _ 2
  have hsum : f.units (f.infinity - 1) + f.units f.infinity =
      (2 ^ (f.fractionBits + 2) - 1) * 2 ^ (2 ^ f.exponentBits - 3) := by
    obtain ⟨e, he⟩ : ∃ e, 2 ^ f.exponentBits = e + 3 := ⟨2 ^ f.exponentBits - 3, by omega⟩
    have hpow : 0 < 2 ^ f.fractionBits := Nat.two_pow_pos _
    have hdouble : 2 ^ f.fractionBits * 2 ^ (e + 1) = 2 ^ (f.fractionBits + 1) * 2 ^ e := by
      ring
    rw [units_infinity_pred h, units_infinity, he, show e + 3 - 3 = e from rfl,
      show e + 3 - 2 = e + 1 from rfl, hdouble, ← Nat.add_mul]
    congr 1
    rw [Nat.pow_succ, Nat.pow_succ, Nat.pow_succ]
    omega
  -- Both sides are counted in the units of the smallest magnitude.
  have hscale : f.overflow * (2 * 2 ^ f.scale) =
      (2 ^ (f.fractionBits + 2) - 1) * 2 ^ (2 ^ f.exponentBits - 3) := by
    rw [overflow, scale, ← Nat.pow_succ', Nat.mul_assoc, ← Nat.pow_add]
    congr 2
    omega
  have hunits : 2 * n * 2 ^ f.scale = n * (2 * 2 ^ f.scale) := by ring
  have hcancel : f.overflow * (2 * 2 ^ f.scale) ≤ n * (2 * 2 ^ f.scale) ↔ f.overflow ≤ n :=
    Nat.mul_le_mul_right_iff (Nat.mul_pos (by omega) (Nat.two_pow_pos _))
  rw [le_roundMagnitude_iff Nat.one_pos le_rfl, reaches_iff, hsum, Nat.mul_one, hunits, ← hcancel,
    hscale]
  omega

/-- An integer that is not zero is not rounded below one. -/
theorem two_pow_scale_le_units (h : f.Wide) {n : Nat} (hn : 0 < n) :
    2 ^ f.scale ≤ f.units (f.roundMagnitude n 1) := by
  have hexp := f.two_pow_exponentBits
  have hlarge := h.exponent
  obtain ⟨m, hm, hlt⟩ := f.exists_units_eq
    (show 1 < 2 ^ (f.fractionBits + 1) from Nat.one_lt_two_pow (by omega)) f.scale
  rw [Nat.one_mul] at hm
  have hscale : f.scale + 2 ≤ 2 ^ f.exponentBits - 1 := by
    rw [scale]
    omega
  have hfinite : m ≤ f.infinity := by
    have := Nat.mul_le_mul_right (2 ^ f.fractionBits) hscale
    rw [infinity]
    omega
  have hone : f.roundMagnitude 1 1 = m := f.roundMagnitude_eq Nat.one_pos hfinite (by rw [hm]; ring)
  rw [← hm, ← hone]
  exact f.units_strictMono.monotone (f.roundMagnitude_mono Nat.one_pos Nat.one_pos (by omega))

/-- The quotient of a number that is not below one and a finite one does not underflow. -/
theorem one_le_roundMagnitude (h : f.Wide) {n d : Nat} (hd : 0 < d) (hn : 2 ^ f.scale ≤ n)
    (hfinite : d < f.units f.infinity) : 1 ≤ f.roundMagnitude n d := by
  have hexp := f.two_pow_exponentBits
  have hlarge := h.exponent
  have hfraction := h.fraction
  have hunits : f.units 0 + f.units 1 = 1 := by
    rw [units_of_lt f (Nat.two_pow_pos _),
      units_of_lt f (Nat.one_lt_two_pow (by omega))]
  have hle : f.units f.infinity ≤ 2 * (2 ^ f.scale * 2 ^ f.scale) := by
    rw [units_infinity, ← Nat.pow_add, ← Nat.pow_add, ← Nat.pow_succ']
    refine Nat.pow_le_pow_right (by omega) ?_
    rw [scale]
    omega
  have hmul := Nat.mul_le_mul_right (2 ^ f.scale) hn
  rw [le_roundMagnitude_iff hd f.infinity_pos, reaches_iff]
  refine .inr ⟨f.infinity_pos, .inl ?_⟩
  rw [show 1 - 1 = 0 from rfl, hunits, Nat.one_mul, Nat.mul_assoc]
  omega

end FloatFormat

namespace BinaryFloat

variable {f : FloatFormat}

theorem magnitude_ofInt (n : Int) :
    (ofInt n : BinaryFloat f).magnitude = f.roundMagnitude n.natAbs 1 :=
  Nat.min_eq_left (f.roundMagnitude_le_infinity _ _)

theorem isNaN_ofInt (n : Int) : (ofInt n : BinaryFloat f).isNaN = false := by
  have := f.roundMagnitude_le_infinity n.natAbs 1
  rw [isNaN, magnitude_ofInt]
  simpa using this

theorem isInfinite_ofInt (h : f.Wide) (n : Int) :
    (ofInt n : BinaryFloat f).isInfinite = decide (f.overflow ≤ n.natAbs) := by
  have hle := f.roundMagnitude_le_infinity n.natAbs 1
  rw [isInfinite, magnitude_ofInt, Bool.eq_iff_iff, decide_eq_true_eq, beq_iff_eq,
    ← FloatFormat.infinity_le_roundMagnitude_iff h]
  omega

theorem isZero_ofInt (h : f.Wide) (n : Int) :
    (ofInt n : BinaryFloat f).isZero = decide (n = 0) := by
  by_cases hn : n = 0
  · simp [isZero, magnitude_ofInt, hn, f.roundMagnitude_zero]
  · have hunits := FloatFormat.two_pow_scale_le_units h (n := n.natAbs) (by omega)
    have hpos : 0 < 2 ^ f.scale := Nat.two_pow_pos _
    have hzero : f.units 0 = 0 := f.units_of_lt (Nat.two_pow_pos _)
    have hne : f.roundMagnitude n.natAbs 1 ≠ 0 := by
      intro heq
      rw [heq, hzero] at hunits
      omega
    simp [isZero, magnitude_ofInt, hn, hne]

/-- A quotient of integers is zero if the dividend is, or if the divisor is infinite and
the dividend is not. -/
theorem isZero_div_ofInt (h : f.Wide) {n d : Int} (hd : d ≠ 0) :
    (div (ofInt n) (ofInt d) : BinaryFloat f).isZero = true ↔
      n = 0 ∨ n.natAbs < f.overflow ∧ f.overflow ≤ d.natAbs := by
  have hpos := f.infinity_pos
  have hoverflow : 0 < f.overflow := by
    refine Nat.mul_pos ?_ (Nat.two_pow_pos _)
    have := Nat.one_lt_two_pow (n := f.fractionBits + 2) (by omega)
    omega
  unfold div
  simp only [isNaN_ofInt, Bool.or_self, Bool.false_eq_true, if_false, isInfinite_ofInt h,
    isZero_ofInt h, decide_eq_true_eq, hd]
  by_cases hn : f.overflow ≤ n.natAbs
  · rw [if_pos hn]
    have hn' : ¬(n = 0 ∨ n.natAbs < f.overflow ∧ f.overflow ≤ d.natAbs) := by omega
    split_ifs
    · have hbits : f.infinity < 2 ^ f.bits := infinity_lt
      simp only [isZero, nan, hn', iff_false, beq_iff_eq]
      omega
    · simp only [isZero, magnitude_ofMagnitude, hn', iff_false, beq_iff_eq]
      omega
  · rw [if_neg hn]
    by_cases hdinf : f.overflow ≤ d.natAbs
    · rw [if_pos hdinf]
      simp only [isZero, magnitude_ofMagnitude, Nat.zero_min, beq_self_eq_true, true_iff]
      exact .inr ⟨by omega, hdinf⟩
    · rw [if_neg hdinf]
      simp only [isZero, magnitude_ofMagnitude, magnitude_ofInt, hdinf, and_false, or_false,
        beq_iff_eq]
      have hdunits := FloatFormat.two_pow_scale_le_units h (n := d.natAbs) (by omega)
      have hdpos : 0 < 2 ^ f.scale := Nat.two_pow_pos _
      constructor
      · intro hzero
        by_contra hn0
        have hfinite : f.units (f.roundMagnitude d.natAbs 1) < f.units f.infinity := by
          refine f.units_strictMono ?_
          rwa [← not_le, FloatFormat.infinity_le_roundMagnitude_iff h]
        have hone := FloatFormat.one_le_roundMagnitude h (by omega)
          (FloatFormat.two_pow_scale_le_units h (n := n.natAbs) (by omega)) hfinite
        omega
      · rintro rfl
        have hzero : f.units 0 = 0 := f.units_of_lt (Nat.two_pow_pos _)
        rw [Int.natAbs_zero, f.roundMagnitude_zero Nat.one_pos, hzero,
          f.roundMagnitude_zero (by omega), Nat.zero_min]

end BinaryFloat

end Vsql.Foundation
