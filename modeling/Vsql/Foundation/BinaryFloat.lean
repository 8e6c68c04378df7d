import Mathlib.Tactic.Linarith
import Mathlib.Tactic.Ring

/-!
# Binary floating point numbers

A number of a binary interchange format is a sign and a magnitude.  The
magnitude is the exponent followed by the fraction, read as one natural number;
the largest exponent is that of infinity, and what is above infinity is not a
number.  Every magnitude is a multiple of the smallest one, so that rounding to
the nearest number only needs comparisons of natural numbers: `roundMagnitude`
finds the last magnitude that a fraction reaches, where a tie goes to the even
magnitude.
-/

namespace Vsql.Foundation

structure FloatFormat where
  fractionBits : Nat
  exponentBits : Nat
  exponentBits_pos : 0 < exponentBits

namespace FloatFormat

variable (f : FloatFormat)

def bits : Nat := f.fractionBits + f.exponentBits

def infinity : Nat := (2 ^ f.exponentBits - 1) * 2 ^ f.fractionBits

theorem infinity_pos : 0 < f.infinity := by
  have hexp : 2 ^ 1 ≤ 2 ^ f.exponentBits :=
    Nat.pow_le_pow_right (by omega) f.exponentBits_pos
  exact Nat.mul_pos (by omega) (Nat.two_pow_pos _)

/-- The smallest magnitude after zero is one over two to this power. -/
def scale : Nat := 2 ^ (f.exponentBits - 1) - 2 + f.fractionBits

/-- How many times the smallest magnitude is in a magnitude. -/
def units (m : Nat) : Nat :=
  if m < 2 ^ f.fractionBits then m
  else (2 ^ f.fractionBits + m % 2 ^ f.fractionBits) *
    2 ^ (m / 2 ^ f.fractionBits - 1)

theorem units_lt_units_succ (m : Nat) : f.units m < f.units (m + 1) := by
  have hpos : 0 < 2 ^ f.fractionBits := Nat.two_pow_pos _
  have hmod : m % 2 ^ f.fractionBits < 2 ^ f.fractionBits := Nat.mod_lt _ hpos
  by_cases hsub : m + 1 < 2 ^ f.fractionBits
  · rw [units, units, if_pos (by omega), if_pos hsub]
    omega
  · by_cases heq : m + 1 = 2 ^ f.fractionBits
    · rw [units, units, if_pos (by omega), if_neg (by omega), heq, Nat.mod_self,
        Nat.div_self hpos]
      simp only [Nat.add_zero, Nat.sub_self, Nat.pow_zero, Nat.mul_one]
      omega
    · have hdiv := Nat.div_add_mod m (2 ^ f.fractionBits)
      have hexp : 1 ≤ m / 2 ^ f.fractionBits :=
        (Nat.one_le_div_iff hpos).mpr (by omega)
      rw [units, units, if_neg (by omega), if_neg (by omega)]
      by_cases hcarry : m % 2 ^ f.fractionBits + 1 < 2 ^ f.fractionBits
      · have hm : m + 1 = 2 ^ f.fractionBits * (m / 2 ^ f.fractionBits) +
            (m % 2 ^ f.fractionBits + 1) := by omega
        have hsucc : (m + 1) / 2 ^ f.fractionBits = m / 2 ^ f.fractionBits := by
          rw [hm, Nat.mul_add_div hpos, Nat.div_eq_of_lt hcarry, Nat.add_zero]
        have hrem : (m + 1) % 2 ^ f.fractionBits = m % 2 ^ f.fractionBits + 1 := by
          rw [hm, Nat.mul_add_mod, Nat.mod_eq_of_lt hcarry]
        rw [hsucc, hrem]
        exact Nat.mul_lt_mul_of_pos_right (by omega) (Nat.two_pow_pos _)
      · have hm : m + 1 = 2 ^ f.fractionBits * (m / 2 ^ f.fractionBits + 1) := by
          rw [Nat.mul_add, Nat.mul_one]
          omega
        have hsucc : (m + 1) / 2 ^ f.fractionBits = m / 2 ^ f.fractionBits + 1 := by
          rw [hm, Nat.mul_div_cancel_left _ hpos]
        have hrem : (m + 1) % 2 ^ f.fractionBits = 0 := by
          rw [hm, Nat.mul_mod_right]
        have hpow : 2 ^ (m / 2 ^ f.fractionBits + 1 - 1) =
            2 * 2 ^ (m / 2 ^ f.fractionBits - 1) := by
          rw [← Nat.pow_succ']
          congr 1
          omega
        rw [hsucc, hrem, hpow, Nat.add_zero, ← Nat.mul_assoc]
        exact Nat.mul_lt_mul_of_pos_right (by omega) (Nat.two_pow_pos _)

theorem units_strictMono : StrictMono f.units :=
  strictMono_nat_of_lt_succ f.units_lt_units_succ

/-! ## The nearest magnitude -/

/-- Whether `n / d` is closer to `m` than to the magnitude before it. -/
def reaches (n d m : Nat) : Bool :=
  m == 0 ||
    (decide (m ≤ f.infinity) &&
      (decide ((f.units (m - 1) + f.units m) * d < 2 * n * 2 ^ f.scale) ||
        (decide ((f.units (m - 1) + f.units m) * d = 2 * n * 2 ^ f.scale) &&
          m % 2 == 0)))

/-- The last number that passes the test, from `m` to before `m + 2 ^ k`. -/
def search (test : Nat → Bool) : Nat → Nat → Nat
  | 0, m => m
  | k + 1, m =>
      if test (m + 2 ^ k) then search test k (m + 2 ^ k) else search test k m

def roundMagnitude (n d : Nat) : Nat := search (f.reaches n d) f.bits 0

theorem search_passes {test : Nat → Bool} (k : Nat) {m : Nat} (h : test m) :
    test (search test k m) := by
  induction k generalizing m with
  | zero => exact h
  | succ k ih =>
      rw [search]
      split
      · next hnext => exact ih hnext
      · exact ih h

theorem search_lt (test : Nat → Bool) (k m : Nat) :
    search test k m < m + 2 ^ k := by
  induction k generalizing m with
  | zero => simp [search]
  | succ k ih =>
      have hpow : 2 ^ (k + 1) = 2 ^ k + 2 ^ k := by rw [Nat.pow_succ]; omega
      have hpos : 0 < 2 ^ k := Nat.two_pow_pos k
      rw [search]
      split
      · have := ih (m + 2 ^ k)
        omega
      · have := ih m
        omega

theorem le_search {test : Nat → Bool}
    (hdown : ∀ m n, m ≤ n → test n = true → test m = true) {k m n : Nat}
    (hn : n < m + 2 ^ k) (htest : test n) : n ≤ search test k m := by
  induction k generalizing m with
  | zero =>
      simp only [Nat.pow_zero] at hn
      simp only [search]
      omega
  | succ k ih =>
      have hpow : 2 ^ (k + 1) = 2 ^ k + 2 ^ k := by rw [Nat.pow_succ]; omega
      rw [search]
      split
      · exact ih (by omega)
      · next hfail =>
          refine ih ?_
          by_contra hge
          exact hfail (hdown (m + 2 ^ k) n (by omega) htest)

theorem reaches_iff (n d m : Nat) :
    f.reaches n d m = true ↔ m = 0 ∨ m ≤ f.infinity ∧
      ((f.units (m - 1) + f.units m) * d < 2 * n * 2 ^ f.scale ∨
        (f.units (m - 1) + f.units m) * d = 2 * n * 2 ^ f.scale ∧ m % 2 = 0) := by
  simp [reaches]

theorem reaches_of_le {n d : Nat} (hd : 0 < d) {m m' : Nat} (hm : m ≤ m')
    (h : f.reaches n d m' = true) : f.reaches n d m = true := by
  rw [reaches_iff] at h ⊢
  obtain rfl | hlt := Nat.eq_or_lt_of_le hm
  · exact h
  · obtain rfl | hpos := Nat.eq_zero_or_pos m
    · exact .inl rfl
    · obtain rfl | ⟨hinf, hclose⟩ := h
      · omega
      · refine .inr ⟨by omega, .inl ?_⟩
        have hlow : f.units (m - 1) ≤ f.units (m' - 1) :=
          f.units_strictMono.monotone (by omega)
        have hhigh : f.units m < f.units m' := f.units_strictMono hlt
        have hmul : (f.units (m - 1) + f.units m) * d <
            (f.units (m' - 1) + f.units m') * d :=
          Nat.mul_lt_mul_of_pos_right (by omega) hd
        omega

/-- A larger fraction reaches every magnitude that a smaller one does. -/
theorem reaches_mono {n d n' d' : Nat} (hd : 0 < d) (hd' : 0 < d')
    (hle : n * d' ≤ n' * d) {m : Nat} (h : f.reaches n d m = true) :
    f.reaches n' d' m = true := by
  rw [reaches_iff] at h ⊢
  obtain h | ⟨hinf, hclose⟩ := h
  · exact .inl h
  · refine .inr ⟨hinf, ?_⟩
    generalize f.units (m - 1) + f.units m = u at hclose ⊢
    generalize 2 ^ f.scale = k at hclose ⊢
    have hmul : 2 * n * k * d' ≤ 2 * n' * k * d := by
      have := Nat.mul_le_mul_left (2 * k) hle
      nlinarith only [this]
    obtain hclose | ⟨hclose, heven⟩ := hclose
    · refine .inl ?_
      have hlt : u * d * d' < 2 * n * k * d' :=
        Nat.mul_lt_mul_of_pos_right hclose hd'
      refine lt_of_mul_lt_mul_right (a := d) ?_ (Nat.zero_le d)
      calc u * d' * d = u * d * d' := by ring
        _ < 2 * n' * k * d := by omega
    · have hle' : u * d' * d ≤ 2 * n' * k * d := by
        calc u * d' * d = u * d * d' := by ring
          _ = 2 * n * k * d' := by rw [hclose]
          _ ≤ 2 * n' * k * d := hmul
      obtain hlt | heq := lt_or_eq_of_le (Nat.le_of_mul_le_mul_right hle' hd)
      · exact .inl hlt
      · exact .inr ⟨heq, heven⟩

theorem roundMagnitude_mono {n d n' d' : Nat} (hd : 0 < d) (hd' : 0 < d')
    (hle : n * d' ≤ n' * d) : f.roundMagnitude n d ≤ f.roundMagnitude n' d' := by
  have hpasses : f.reaches n d (f.roundMagnitude n d) = true :=
    search_passes f.bits (by simp [reaches])
  refine le_search (fun _ _ => f.reaches_of_le hd') ?_
    (f.reaches_mono hd hd' hle hpasses)
  exact search_lt _ _ _

theorem roundMagnitude_zero {d : Nat} (hd : 0 < d) : f.roundMagnitude 0 d = 0 := by
  have hpasses : f.reaches 0 d (f.roundMagnitude 0 d) = true :=
    search_passes f.bits (by simp [reaches])
  obtain hzero | ⟨-, hclose⟩ := (f.reaches_iff 0 d _).mp hpasses
  · exact hzero
  · by_contra hne
    have hunits : f.units 0 < f.units (f.roundMagnitude 0 d) :=
      f.units_strictMono (Nat.pos_of_ne_zero hne)
    have hpos : 0 < (f.units (f.roundMagnitude 0 d - 1) +
        f.units (f.roundMagnitude 0 d)) * d := Nat.mul_pos (by omega) hd
    simp only [Nat.mul_zero, Nat.zero_mul] at hclose
    omega

theorem roundMagnitude_le_infinity (n d : Nat) :
    f.roundMagnitude n d ≤ f.infinity := by
  have hpasses : f.reaches n d (f.roundMagnitude n d) = true :=
    search_passes f.bits (by simp [reaches])
  obtain hzero | ⟨hle, -⟩ := (f.reaches_iff n d _).mp hpasses
  · omega
  · exact hle

/-- A fraction that is a magnitude is rounded to it. -/
theorem roundMagnitude_eq {n d m : Nat} (hd : 0 < d) (hm : m ≤ f.infinity)
    (h : n * 2 ^ f.scale = f.units m * d) : f.roundMagnitude n d = m := by
  have hself : f.reaches n d m = true := by
    rw [reaches_iff]
    obtain rfl | hpos := Nat.eq_zero_or_pos m
    · exact .inl rfl
    · have hlt : f.units (m - 1) < f.units m := f.units_strictMono (by omega)
      have hmul : (f.units (m - 1) + f.units m) * d < 2 * (f.units m * d) := by
        rw [← Nat.mul_assoc]
        exact Nat.mul_lt_mul_of_pos_right (by omega) hd
      refine .inr ⟨hm, .inl ?_⟩
      rw [← h] at hmul
      rwa [Nat.mul_assoc 2]
  have hnext : ¬f.reaches n d (m + 1) = true := by
    rw [reaches_iff]
    have hlt : f.units m < f.units (m + 1) := f.units_lt_units_succ m
    have hmul : 2 * (f.units m * d) < (f.units (m + 1 - 1) + f.units (m + 1)) * d := by
      rw [← Nat.mul_assoc, Nat.add_sub_cancel]
      exact Nat.mul_lt_mul_of_pos_right (by omega) hd
    rw [← h, ← Nat.mul_assoc 2] at hmul
    omega
  have hpasses : f.reaches n d (f.roundMagnitude n d) = true :=
    search_passes f.bits (by simp [reaches])
  have hbits : f.infinity < 2 ^ f.bits := by
    rw [infinity, bits, Nat.add_comm, Nat.pow_add]
    exact Nat.mul_lt_mul_of_pos_right
      (Nat.sub_lt (Nat.two_pow_pos _) Nat.one_pos) (Nat.two_pow_pos _)
  have hle : m ≤ f.roundMagnitude n d :=
    le_search (fun _ _ => f.reaches_of_le hd) (by omega) hself
  by_contra hne
  exact hnext (f.reaches_of_le hd (show m + 1 ≤ f.roundMagnitude n d by omega) hpasses)

theorem units_of_lt {k : Nat} (h : k < 2 ^ (f.fractionBits + 1)) : f.units k = k := by
  rw [Nat.pow_succ] at h
  rw [units]
  split
  · rfl
  · next hge =>
      have hdiv : k / 2 ^ f.fractionBits = 1 := by
        rw [Nat.div_eq_iff (Nat.two_pow_pos _)]
        omega
      have hmod := Nat.div_add_mod k (2 ^ f.fractionBits)
      rw [hdiv] at hmod ⊢
      simp only [Nat.sub_self, Nat.pow_zero, Nat.mul_one] at hmod ⊢
      omega

theorem exists_units_double (m : Nat) :
    ∃ m', f.units m' = 2 * f.units m ∧ m' ≤ m + 2 ^ f.fractionBits := by
  by_cases h : m < 2 ^ f.fractionBits
  · refine ⟨2 * m, ?_, by omega⟩
    rw [f.units_of_lt (by rw [Nat.pow_succ]; omega),
      f.units_of_lt (by rw [Nat.pow_succ]; omega)]
  · refine ⟨m + 2 ^ f.fractionBits, ?_, le_rfl⟩
    have hexp : 1 ≤ m / 2 ^ f.fractionBits :=
      (Nat.one_le_div_iff (Nat.two_pow_pos _)).mpr (by omega)
    have hpow : 2 ^ (m / 2 ^ f.fractionBits + 1 - 1) =
        2 * 2 ^ (m / 2 ^ f.fractionBits - 1) := by
      rw [← Nat.pow_succ']
      congr 1
      omega
    rw [units, units, if_neg (by omega), if_neg h, Nat.add_mod_right,
      Nat.add_div_right _ (Nat.two_pow_pos _), hpow]
    ring

/-- A significand that fits and any power of two is a magnitude. -/
theorem exists_units_eq {k : Nat} (hk : k < 2 ^ (f.fractionBits + 1)) (e : Nat) :
    ∃ m, f.units m = k * 2 ^ e ∧ m < (e + 2) * 2 ^ f.fractionBits := by
  induction e with
  | zero =>
      refine ⟨k, by rw [f.units_of_lt hk, Nat.pow_zero, Nat.mul_one], ?_⟩
      rw [Nat.pow_succ] at hk
      omega
  | succ e ih =>
      obtain ⟨m, hm, hlt⟩ := ih
      obtain ⟨m', hm', hle⟩ := f.exists_units_double m
      refine ⟨m', ?_, ?_⟩
      · rw [hm', hm, Nat.pow_succ]
        ring
      · have : (e + 1 + 2) * 2 ^ f.fractionBits =
            (e + 2) * 2 ^ f.fractionBits + 2 ^ f.fractionBits := by ring
        omega

end FloatFormat

/-! ## Numbers -/

structure BinaryFloat (f : FloatFormat) where
  negative : Bool
  magnitude : Nat
  bound : magnitude < 2 ^ f.bits
  deriving DecidableEq

namespace BinaryFloat

variable {f g : FloatFormat}

def isNaN (x : BinaryFloat f) : Bool := decide (f.infinity < x.magnitude)

def isInfinite (x : BinaryFloat f) : Bool := x.magnitude == f.infinity

def isZero (x : BinaryFloat f) : Bool := x.magnitude == 0

/-- Two numbers compare like these integers. -/
def order (x : BinaryFloat f) : Int :=
  if x.negative then -x.magnitude else x.magnitude

def lt (x y : BinaryFloat f) : Bool :=
  !x.isNaN && !y.isNaN && decide (x.order < y.order)

theorem infinity_lt : f.infinity < 2 ^ f.bits := by
  rw [FloatFormat.infinity, FloatFormat.bits, Nat.add_comm, Nat.pow_add]
  exact Nat.mul_lt_mul_of_pos_right
    (Nat.sub_lt (Nat.two_pow_pos _) Nat.one_pos) (Nat.two_pow_pos _)

def ofMagnitude (negative : Bool) (m : Nat) : BinaryFloat f :=
  ⟨negative, min m f.infinity, lt_of_le_of_lt (Nat.min_le_right _ _) infinity_lt⟩

/-- The number that is nearest to `n / d`. -/
def ofFraction (n : Int) (d : Nat) : BinaryFloat f :=
  ofMagnitude (decide (n < 0)) (f.roundMagnitude n.natAbs d)

def ofInt (n : Int) : BinaryFloat f := ofFraction n 1

def nan (f : FloatFormat) : BinaryFloat f :=
  ⟨false, 2 ^ f.bits - 1, Nat.sub_lt (Nat.two_pow_pos _) Nat.one_pos⟩

/-- The number of another format that is nearest to `x`. -/
def convert (x : BinaryFloat f) : BinaryFloat g :=
  if x.isNaN then nan g
  else if x.isInfinite then ofMagnitude x.negative g.infinity
  else ofMagnitude x.negative (g.roundMagnitude (f.units x.magnitude) (2 ^ f.scale))

def div (x y : BinaryFloat f) : BinaryFloat f :=
  let negative := x.negative != y.negative
  if x.isNaN || y.isNaN then nan f
  else if x.isInfinite then
    if y.isInfinite then nan f else ofMagnitude negative f.infinity
  else if y.isInfinite then ofMagnitude negative 0
  else if y.isZero then
    if x.isZero then nan f else ofMagnitude negative f.infinity
  else ofMagnitude negative
    (f.roundMagnitude (f.units x.magnitude) (f.units y.magnitude))

def signedUnits (x : BinaryFloat f) : Int :=
  if x.negative then -(f.units x.magnitude : Int) else f.units x.magnitude

def add (x y : BinaryFloat f) : BinaryFloat f :=
  if x.isNaN || y.isNaN then nan f
  else if x.isInfinite then
    if y.isInfinite && x.negative != y.negative then nan f else x
  else if y.isInfinite then y
  else
    let sum := x.signedUnits + y.signedUnits
    if sum = 0 then ofMagnitude (x.negative && y.negative) 0 else ofFraction sum (2 ^ f.scale)

@[simp] theorem magnitude_ofMagnitude (negative : Bool) (m : Nat) :
    (ofMagnitude negative m : BinaryFloat f).magnitude = min m f.infinity := rfl

theorem order_ofMagnitude (negative : Bool) (m : Nat) :
    (ofMagnitude negative m : BinaryFloat f).order =
      if negative then -((min m f.infinity : Nat) : Int)
      else ((min m f.infinity : Nat) : Int) := rfl

/-- Numbers that compare the same and are not zero are the same. -/
theorem eq_of_order_eq {x y : BinaryFloat f} (h : x.order = y.order)
    (hx : x.magnitude ≠ 0) : x = y := by
  obtain ⟨xneg, xm, xb⟩ := x
  obtain ⟨yneg, ym, yb⟩ := y
  simp only [order] at h hx
  cases xneg <;> cases yneg <;> simp only [Bool.false_eq_true, if_false, if_true] at h
  all_goals first
    | (have hm : xm = ym := by omega
       subst hm
       rfl)
    | omega

/-- The magnitude of the converted number, where infinity stays infinite. -/
private def convertedMagnitude (g : FloatFormat) (x : BinaryFloat f) : Nat :=
  if x.magnitude = f.infinity then g.infinity
  else min (g.roundMagnitude (f.units x.magnitude) (2 ^ f.scale)) g.infinity

private theorem convertedMagnitude_mono {x y : BinaryFloat f}
    (hy : y.magnitude ≤ f.infinity) (h : x.magnitude ≤ y.magnitude) :
    convertedMagnitude g x ≤ convertedMagnitude g y := by
  rw [convertedMagnitude, convertedMagnitude]
  by_cases hinf : y.magnitude = f.infinity
  · rw [if_pos hinf]
    split
    · exact le_rfl
    · exact Nat.min_le_right _ _
  · rw [if_neg hinf, if_neg (by omega)]
    refine min_le_min_right _ (g.roundMagnitude_mono (Nat.two_pow_pos _)
      (Nat.two_pow_pos _) ?_)
    exact Nat.mul_le_mul_right _ (f.units_strictMono.monotone h)

private theorem convertedMagnitude_zero {x : BinaryFloat f} (h : x.magnitude = 0) :
    convertedMagnitude g x = 0 := by
  have hunits : f.units 0 = 0 := by
    rw [FloatFormat.units, if_pos (Nat.two_pow_pos _)]
  have hpos := f.infinity_pos
  rw [convertedMagnitude, if_neg (by omega), h, hunits,
    g.roundMagnitude_zero (Nat.two_pow_pos _), Nat.zero_min]

private theorem order_convert {x : BinaryFloat f} (hx : x.isNaN = false) :
    (x.convert : BinaryFloat g).order =
      if x.negative then -((convertedMagnitude g x : Nat) : Int)
      else ((convertedMagnitude g x : Nat) : Int) := by
  rw [convert, hx, if_neg (by simp), convertedMagnitude]
  by_cases hinf : x.magnitude = f.infinity
  · rw [if_pos (by simp [isInfinite, hinf]), if_pos hinf, order_ofMagnitude,
      Nat.min_self]
  · rw [if_neg (by simp [isInfinite, hinf]), if_neg hinf, order_ofMagnitude]

theorem isNaN_convert {x : BinaryFloat f} (hx : x.isNaN = false) :
    (x.convert : BinaryFloat g).isNaN = false := by
  rw [convert, hx, if_neg (by simp)]
  split <;> simp [isNaN]

theorem magnitude_convert_zero {x : BinaryFloat f} (h : x.magnitude = 0) :
    (x.convert : BinaryFloat g).magnitude = 0 := by
  have hpos := f.infinity_pos
  have hnan : x.isNaN = false := by simp [isNaN, h]
  have horder := order_convert (g := g) hnan
  rw [convertedMagnitude_zero h] at horder
  simp only [order] at horder
  split at horder <;> split at horder <;> omega

theorem negative_convert_zero {x : BinaryFloat f} (h : x.magnitude = 0) :
    (x.convert : BinaryFloat g).negative = x.negative := by
  have hpos := f.infinity_pos
  have hnan : x.isNaN = false := by simp [isNaN, h]
  rw [convert, hnan, if_neg (by simp), if_neg (by simp [isInfinite]; omega)]
  rfl

theorem eq_of_zero {x y : BinaryFloat f} (hx : x.magnitude = 0)
    (hneg : x.negative = y.negative) (hy : y.magnitude = 0) : x = y := by
  obtain ⟨xneg, xm, xb⟩ := x
  obtain ⟨yneg, ym, yb⟩ := y
  simp only at hx hy hneg
  subst hx hy hneg
  rfl

/-- Converting to another format never swaps two numbers. -/
theorem order_convert_mono {x y : BinaryFloat f} (hx : x.isNaN = false)
    (hy : y.isNaN = false) (h : x.order ≤ y.order) :
    (x.convert : BinaryFloat g).order ≤ (y.convert : BinaryFloat g).order := by
  have hxm : x.magnitude ≤ f.infinity := by simpa [isNaN] using hx
  have hym : y.magnitude ≤ f.infinity := by simpa [isNaN] using hy
  rw [order_convert hx, order_convert hy]
  rw [order, order] at h
  by_cases hxn : x.negative <;> by_cases hyn : y.negative <;>
    simp only [hxn, hyn, if_true, if_false, Bool.false_eq_true] at h ⊢
  · have := convertedMagnitude_mono (g := g) hxm (x := y) (y := x) (by omega)
    omega
  · omega
  · rw [convertedMagnitude_zero (by omega), convertedMagnitude_zero (by omega)]
    rfl
  · have := convertedMagnitude_mono (g := g) hym (x := x) (y := y) (by omega)
    omega

end BinaryFloat

end Vsql.Foundation
