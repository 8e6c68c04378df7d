import Mathlib.Data.List.DropRight
import Vsql.Lexer.Tokens
import Vsql.Rows.Contents
import Vsql.Values.Fraction

/-!
# Numbers as text

A NUMERIC is printed with as many digits after the point as its scale has, and its scale is
read from them.  In a row it is the bytes of its numerator and denominator.
-/

namespace Vsql

open Foundation Foundation.Reader Rows

/-! ## Integers -/

/-- The digits of an integer with its sign, if it is negative. -/
def intText (x : Int) : Text :=
  if x < 0 then '-' :: Nat.toDigits 10 x.natAbs else Nat.toDigits 10 x.natAbs

/-- The value of digits.  Anything else is not a number. -/
def digitsValue? (s : Text) : Option Nat :=
  if s.all Char.isDigit then some (Nat.ofDigitChars 10 s 0) else none

/-- `big.integer_from_string`, which is zero for what is not a number. -/
def integerFromString : Text → Int
  | '-' :: digits => -((digitsValue? digits).getD 0 : Nat)
  | '+' :: digits => ((digitsValue? digits).getD 0 : Nat)
  | digits => ((digitsValue? digits).getD 0 : Nat)

/-- `x.int()`, which is the digits up to what is not one.  An `int` is saturated, but only
exponents of at most four digits are used. -/
def textInt : Text → Int
  | '-' :: digits => -(Nat.ofDigitChars 10 (digits.takeWhile Char.isDigit) 0 : Nat)
  | '+' :: digits => (Nat.ofDigitChars 10 (digits.takeWhile Char.isDigit) 0 : Nat)
  | digits => (Nat.ofDigitChars 10 (digits.takeWhile Char.isDigit) 0 : Nat)

/-! ## Reading -/

def isExponentLetter (c : Char) : Bool := c == 'e' || c == 'E'

/-- The zeros before the other digits, as long as the point is after them. -/
def dropLeadingZeros : Text → (point : Int) → Text × Int
  | c :: d :: digits, point =>
      if c = '0' ∧ point > 1 then dropLeadingZeros (d :: digits) (point - 1)
      else (c :: d :: digits, point)
  | digits, point => (digits, point)

/-- The same number without its exponent. -/
def shiftExponent (x : Text) : Text :=
  let exponent := textInt ((x.dropWhile (!isExponentLetter ·)).drop 1)
  if exponent > maxNumericPrecision ∨ exponent < -maxNumericPrecision then ['0']
  else
    let sign : Text := if x.head? = some '-' then ['-'] else []
    let mantissa := ((x.takeWhile (!isExponentLetter ·)).drop sign.length).splitOn '.'
    let whole := mantissa.headD []
    let digits := match mantissa with
      | [whole, fraction] => whole ++ fraction
      | _ => whole
    let (digits, point) := dropLeadingZeros digits (whole.length + exponent)
    if point ≤ 0 then sign ++ ['0', '.'] ++ List.replicate (-point).toNat '0' ++ digits
    else if point ≥ digits.length then
      sign ++ digits ++ List.replicate (point.toNat - digits.length) '0'
    else sign ++ digits.take point.toNat ++ '.' :: digits.drop point.toNat

def newNumericFromString (x : Text) : Numeric :=
  let n := if x.any isExponentLetter then shiftExponent x else x
  let isNegative := n.head? == some '-'
  let n := if isNegative then n.tail else n
  let signed (numerator : Int) : Int := if isNegative then -numerator else numerator
  match n.splitOn '.' with
  | [whole] =>
      ⟨{ typ := .numeric, size := whole.length }, signed (integerFromString whole), 1⟩
  | [whole, fraction] =>
      let denominator : Int := 10 ^ fraction.length
      ⟨{ typ := .numeric, size := whole.length + fraction.length, scale := fraction.length },
        signed (integerFromString whole * denominator + integerFromString fraction),
        denominator⟩
  | whole :: fraction :: _ =>
      ⟨{ typ := .numeric, size := whole.length + fraction.length, scale := fraction.length },
        signed (integerFromString whole), 1⟩
  | [] => ⟨{ typ := .numeric }, 0, 1⟩

/-! ## Printing -/

def trimRightPeriod (s : Text) : Text := s.rdropWhile (· == '.')

def Numeric.str (n : Numeric) : Text :=
  let denominatorStr := intText (10 ^ n.typ.scale)
  let numerator := intText (n.scaleNumerator (10 ^ n.typ.scale)).numerator
  let numerator := if n.isNegative then numerator.drop 1 else numerator
  let s :=
    if numerator.length ≥ denominatorStr.length then
      let whole := numerator.length - denominatorStr.length + 1
      numerator.take whole ++ '.' :: numerator.drop whole
    else
      ['0', '.'] ++ List.replicate (denominatorStr.length - numerator.length - 1) '0' ++
        numerator
  let s := if n.isNegative then '-' :: s else s
  trimRightPeriod s

example : (Numeric.mk { typ := .numeric, scale := 3 } (-45) 1000).str = "-0.045".toList := by
  decide +kernel

/-! ## The digits of a number -/

/-- A number is a multiple of the smallest fraction of its scale, which is an `i16`. -/
structure Numeric.Normalised (n : Numeric) : Prop where
  scale : n.typ.scale < 2 ^ 15
  denominator : n.denominator = 10 ^ n.typ.scale

def Digits (s : Text) : Prop := ∀ c ∈ s, c.isDigit

theorem Digits.not_mem {s : Text} (h : Digits s) {c : Char} (hc : c.isDigit = false) :
    c ∉ s := by
  intro hmem
  rw [h c hmem] at hc
  cases hc

theorem digits_append {s t : Text} : Digits (s ++ t) ↔ Digits s ∧ Digits t :=
  List.forall_mem_append

theorem digits_toDigits (n : Nat) : Digits (Nat.toDigits 10 n) := fun _ hc =>
  Nat.isDigit_of_mem_toDigits (by omega) le_rfl hc

theorem digitsValue?_of_digits {s : Text} (h : Digits s) :
    digitsValue? s = some (Nat.ofDigitChars 10 s 0) :=
  if_pos (List.all_eq_true.mpr h)

theorem integerFromString_of_digits {s : Text} (h : Digits s) :
    integerFromString s = (Nat.ofDigitChars 10 s 0 : Nat) := by
  unfold integerFromString
  split
  · exact absurd (h '-' (by simp)) (by decide)
  · exact absurd (h '+' (by simp)) (by decide)
  · rw [digitsValue?_of_digits h]
    rfl

theorem length_toDigits_ten_pow (scale : Nat) :
    (Nat.toDigits 10 (10 ^ scale)).length = scale + 1 := by
  have hle : (Nat.toDigits 10 (10 ^ scale)).length ≤ scale + 1 :=
    (Nat.length_toDigits_le_iff (by omega) (by omega)).mpr
      (Nat.pow_lt_pow_right (by omega) (by omega))
  obtain rfl | hscale := Nat.eq_zero_or_pos scale
  · rfl
  · have hlt : ¬(Nat.toDigits 10 (10 ^ scale)).length ≤ scale := by
      rw [Nat.length_toDigits_le_iff (by omega) hscale]
      exact lt_irrefl _
    omega

/-- The digits with the point, before a point at the end is removed. -/
def withPoint (scale : Nat) (digits : Text) : Text :=
  if scale + 1 ≤ digits.length then
    digits.take (digits.length - scale) ++ '.' :: digits.drop (digits.length - scale)
  else ['0', '.'] ++ List.replicate (scale - digits.length) '0' ++ digits

/-- Zeros are put before the digits until there is one before the point. -/
theorem exists_withPoint (scale : Nat) {digits : Text} (h : Digits digits) :
    ∃ whole fraction, withPoint scale digits = whole ++ '.' :: fraction ∧
      fraction.length = scale ∧ whole ≠ [] ∧ Digits (whole ++ fraction) ∧
      Nat.ofDigitChars 10 (whole ++ fraction) 0 = Nat.ofDigitChars 10 digits 0 := by
  unfold withPoint
  split_ifs with hlong
  · refine ⟨digits.take (digits.length - scale), digits.drop (digits.length - scale), rfl, ?_,
      ?_, ?_, ?_⟩
    · rw [List.length_drop]
      omega
    · intro hnil
      have hlength := congrArg List.length hnil
      rw [List.length_take, List.length_nil] at hlength
      omega
    · rwa [List.take_append_drop]
    · rw [List.take_append_drop]
  · refine ⟨['0'], List.replicate (scale - digits.length) '0' ++ digits, by simp, ?_, by simp,
      ?_, ?_⟩
    · rw [List.length_append, List.length_replicate]
      omega
    · refine digits_append.mpr ⟨by simp [Digits], digits_append.mpr ⟨?_, h⟩⟩
      intro c hc
      rw [List.eq_of_mem_replicate hc]
      rfl
    · rw [Nat.ofDigitChars_append, Nat.ofDigitChars_append, Nat.ofDigitChars_replicate_zero]
      rfl

theorem trimRightPeriod_of_ne {s : Text} (h : s.getLast? ≠ some '.') : trimRightPeriod s = s := by
  rw [trimRightPeriod, List.rdropWhile_eq_self_iff]
  intro hne
  rw [List.getLast?_eq_some_getLast hne] at h
  simpa using h

theorem Digits.getLast?_append_ne {s : Text} (h : Digits s) (hne : s ≠ []) (before : Text) :
    (before ++ s).getLast? ≠ some '.' := by
  rw [List.getLast?_append, List.getLast?_eq_some_getLast hne, Option.some_or]
  intro hlast
  exact h.not_mem (by decide) (Option.some.inj hlast ▸ List.getLast_mem hne)

/-- A point stays if there are digits after it. -/
theorem trimRightPeriod_append {before fraction : Text} (hbefore : before.getLast? ≠ some '.')
    (h : Digits fraction) :
    trimRightPeriod (before ++ '.' :: fraction) =
      if fraction = [] then before else before ++ '.' :: fraction := by
  split_ifs with hnil
  · rw [hnil, trimRightPeriod, List.rdropWhile_concat_pos _ _ _ rfl]
    exact trimRightPeriod_of_ne hbefore
  · refine trimRightPeriod_of_ne ?_
    rw [List.append_cons]
    exact h.getLast?_append_ne hnil _

/-! ## What is printed is read back -/

def signText (negative : Bool) : Text := if negative then ['-'] else []

theorem Numeric.Normalised.str_eq {n : Numeric} (h : n.Normalised) :
    n.str = trimRightPeriod (signText n.isNegative ++
      withPoint n.typ.scale (Nat.toDigits 10 n.numerator.natAbs)) := by
  have hpow : (10 : Int) ^ n.typ.scale ≠ 0 := by positivity
  have hscaled : (n.scaleNumerator (10 ^ n.typ.scale)).numerator = n.numerator := by
    simp only [Numeric.scaleNumerator, h.denominator]
    exact Int.mul_tdiv_cancel _ hpow
  have hdenominator : (intText (10 ^ n.typ.scale)).length = n.typ.scale + 1 := by
    have hnonneg : ¬(10 : Int) ^ n.typ.scale < 0 := not_lt.mpr (by positivity)
    rw [intText, if_neg hnonneg, Int.natAbs_pow]
    exact length_toDigits_ten_pow _
  have hnumerator : (if n.isNegative then (intText n.numerator).drop 1 else intText n.numerator) =
      Nat.toDigits 10 n.numerator.natAbs := by
    unfold intText Numeric.isNegative
    by_cases hneg : n.numerator < 0 <;> simp [hneg]
  unfold Numeric.str
  simp only [hscaled, hdenominator, hnumerator]
  congr 1
  unfold withPoint signText
  have hwhole : ∀ k : Nat, n.typ.scale + 1 ≤ k → k - (n.typ.scale + 1) + 1 = k - n.typ.scale := by
    omega
  have hzeros : ∀ k : Nat, n.typ.scale + 1 - k - 1 = n.typ.scale - k := by omega
  split_ifs with hneg hlong hlong <;> simp [*]

/-- The text of a number: its sign, and its digits with a point if its scale is not zero. -/
theorem Numeric.Normalised.exists_str {n : Numeric} (h : n.Normalised) :
    ∃ whole fraction, n.str = signText n.isNegative ++
        (if fraction = [] then whole else whole ++ '.' :: fraction) ∧
      fraction.length = n.typ.scale ∧ whole ≠ [] ∧ Digits whole ∧ Digits fraction ∧
      Nat.ofDigitChars 10 (whole ++ fraction) 0 = n.numerator.natAbs := by
  obtain ⟨whole, fraction, htext, hlength, hne, hdigits, hvalue⟩ :=
    exists_withPoint n.typ.scale (digits_toDigits n.numerator.natAbs)
  obtain ⟨hwhole, hfraction⟩ := digits_append.mp hdigits
  rw [Nat.ofDigitChars_ten_toDigits] at hvalue
  refine ⟨whole, fraction, ?_, hlength, hne, hwhole, hfraction, hvalue⟩
  rw [h.str_eq, htext, ← List.append_assoc,
    trimRightPeriod_append (hwhole.getLast?_append_ne hne _) hfraction]
  split_ifs <;> simp

theorem Digits.any_isExponentLetter {s : Text} (h : Digits s) :
    s.any isExponentLetter = false := by
  rw [List.any_eq_false]
  intro c hc hexponent
  have hletter : c = 'e' ∨ c = 'E' := by simpa [isExponentLetter] using hexponent
  obtain rfl | rfl := hletter
  · exact h.not_mem (by decide) hc
  · exact h.not_mem (by decide) hc

/-- A number without an exponent is its sign and the rest. -/
theorem newNumericFromString_sign (negative : Bool) {body : Text}
    (hexponent : body.any isExponentLetter = false) (hhead : body.head? ≠ some '-') :
    newNumericFromString (signText negative ++ body) =
      { newNumericFromString body with
        numerator := (if negative then -1 else 1) * (newNumericFromString body).numerator } := by
  have hbody : (body.head? == some '-') = false := by simpa using hhead
  cases negative with
  | false => simp [signText]
  | true =>
      have hsigned : ('-' :: body).any isExponentLetter = false := by
        rw [List.any_cons, hexponent]
        rfl
      simp only [newNumericFromString, signText, if_true, List.cons_append, List.nil_append,
        hsigned, hexponent, hbody, List.head?_cons, List.tail_cons, beq_self_eq_true,
        Bool.false_eq_true, if_false]
      split <;> simp

/-- The digits after the point are the scale. -/
theorem newNumericFromString_digits {whole fraction : Text} (hne : whole ≠ [])
    (hwhole : Digits whole) (hfraction : Digits fraction) {body : Text}
    (hbody : body = if fraction = [] then whole else whole ++ '.' :: fraction) :
    body.any isExponentLetter = false ∧ body.head? ≠ some '-' ∧
      (newNumericFromString body).numerator = (Nat.ofDigitChars 10 (whole ++ fraction) 0 : Nat) ∧
      (newNumericFromString body).denominator = 10 ^ fraction.length ∧
      (newNumericFromString body).typ.scale = fraction.length := by
  have hperiod : '.' ∉ whole := hwhole.not_mem (by decide)
  have hperiod' : '.' ∉ fraction := hfraction.not_mem (by decide)
  have hexponent : body.any isExponentLetter = false := by
    rw [hbody]
    split_ifs
    · exact hwhole.any_isExponentLetter
    · rw [List.any_append, List.any_cons, hwhole.any_isExponentLetter,
        hfraction.any_isExponentLetter]
      rfl
  have hhead : body.head? ≠ some '-' := by
    obtain ⟨c, rest, rfl⟩ := List.exists_cons_of_ne_nil hne
    have hc : c ≠ '-' := by
      rintro rfl
      exact hwhole.not_mem (c := '-') (by decide) (by simp)
    rw [hbody]
    split_ifs <;> simpa using hc
  refine ⟨hexponent, hhead, ?_⟩
  have hsign : (body.head? == some '-') = false := by simpa using hhead
  simp only [newNumericFromString, hexponent, hsign, Bool.false_eq_true, if_false]
  by_cases hnil : fraction = []
  · rw [if_pos hnil] at hbody
    rw [hbody, List.splitOn_eq_singleton hperiod, hnil]
    simp [integerFromString_of_digits hwhole]
  · rw [if_neg hnil] at hbody
    rw [hbody, List.splitOn_append_cons_self, List.splitOn_eq_singleton hperiod,
      List.splitOn_eq_singleton hperiod']
    have hvalue : Nat.ofDigitChars 10 fraction (Nat.ofDigitChars 10 whole 0) =
        10 ^ fraction.length * Nat.ofDigitChars 10 whole 0 + Nat.ofDigitChars 10 fraction 0 :=
      Nat.ofDigitChars_eq_ofDigitChars_zero
    refine ⟨?_, rfl, rfl⟩
    change integerFromString whole * 10 ^ fraction.length + integerFromString fraction = _
    rw [integerFromString_of_digits hwhole, integerFromString_of_digits hfraction,
      Nat.ofDigitChars_append, hvalue]
    push_cast
    ring

theorem Numeric.Normalised.newNumericFromString_str {n : Numeric} (h : n.Normalised) :
    (newNumericFromString n.str).numerator = n.numerator ∧
      (newNumericFromString n.str).denominator = n.denominator ∧
      (newNumericFromString n.str).typ.scale = n.typ.scale := by
  obtain ⟨whole, fraction, htext, hlength, hne, hwhole, hfraction, hvalue⟩ := h.exists_str
  obtain ⟨hexponent, hhead, hnumerator, hdenominator, hscale⟩ :=
    newNumericFromString_digits hne hwhole hfraction rfl
  rw [htext, newNumericFromString_sign _ hexponent hhead]
  refine ⟨?_, by rw [hdenominator, hlength, h.denominator], by rw [hscale, hlength]⟩
  simp only [hnumerator, hvalue, Numeric.isNegative, decide_eq_true_eq]
  split_ifs <;> omega

/-! ## The bytes of a number -/

theorem length_magnitudeBytes_lt {n k : Nat} (h : n < 10 ^ k) (hk : k ≤ 2 ^ 15) :
    (magnitudeBytes n).length < 2 ^ 15 := by
  have hpow : 10 ^ k ≤ 2 ^ (4 * k) := by
    rw [Nat.pow_mul]
    exact Nat.pow_le_pow_left (by omega) k
  have hsize : n.size ≤ 4 * k := Nat.size_le.mpr (h.trans_le hpow)
  rw [magnitudeBytes, length_bigEndian]
  omega

/-- The length of the denominator always fits, but not that of the numerator. -/
theorem Numeric.Normalised.newNumericFromBytes_bytes {n : Numeric} (h : n.Normalised)
    (hlength : (magnitudeBytes n.numerator.natAbs).length < 2 ^ 15) :
    newNumericFromBytes n.typ (numericBytes n) = .ok (n, []) := by
  have hden := h.denominator
  have hscale := h.scale
  have hpow : (0 : Int) < 10 ^ n.typ.scale := by positivity
  have hdigits : n.denominator.natAbs < 10 ^ (n.typ.scale + 1) := by
    rw [hden, Int.natAbs_pow]
    exact Nat.pow_lt_pow_right (by decide) (by omega)
  have hread := reads_newNumericFromBytes_of_lengths n.typ (hden ▸ hpow)
    (length_magnitudeBytes_lt hdigits (by omega)) hlength
  have hstored : storedNumeric n.typ n = n := by
    unfold storedNumeric
    split_ifs with hzero
    · have hnum : n.numerator = 0 := by simpa [Numeric.isZero] using hzero
      rw [← hnum, ← hden]
    · rfl
  rw [hstored] at hread
  exact hread.run

theorem compare_isEqual_iff {n1 n2 : Numeric} (h1 : 0 < n1.denominator)
    (h2 : 0 < n2.denominator) : n1.compare n2 = .isEqual ↔ n1.value = n2.value := by
  have hq1 : (n1.denominator : ℚ) ≠ 0 := by exact_mod_cast h1.ne'
  have hq2 : (n2.denominator : ℚ) ≠ 0 := by exact_mod_cast h2.ne'
  have hvalue : n1.value = n2.value ↔
      n1.numerator * n2.denominator = n2.numerator * n1.denominator := by
    rw [Numeric.value, Numeric.value, div_eq_div_iff hq1 hq2]
    exact_mod_cast Iff.rfl
  rw [Numeric.compare_eq h1, hvalue]
  split_ifs <;> simp <;> omega

/-! ## Round trips -/

theorem numeric_round_trips {n : Numeric} (h : n.Normalised) :
    ((newNumericFromString n.str).value = n.value ∧
        (newNumericFromString n.str).typ.scale = n.typ.scale) ∧
      ((magnitudeBytes n.numerator.natAbs).length < 2 ^ 15 →
        newNumericFromBytes n.typ (numericBytes n) = .ok (n, [])) ∧
      ∀ n2 : Numeric, n2.Normalised → (n.compare n2 = .isEqual ↔ n.value = n2.value) := by
  obtain ⟨hnumerator, hdenominator, hscale⟩ := h.newNumericFromString_str
  refine ⟨⟨by rw [Numeric.value, hnumerator, hdenominator, Numeric.value], hscale⟩,
    h.newNumericFromBytes_bytes, fun n2 h2 => compare_isEqual_iff ?_ ?_⟩
  · rw [h.denominator]
    positivity
  · rw [h2.denominator]
    positivity

/-- `-0.045` -/
theorem numeric_round_trips_fraction :
    let n : Numeric := ⟨{ typ := .numeric, size := 4, scale := 3 }, -45, 1000⟩
    ((newNumericFromString n.str).value = n.value ∧
        (newNumericFromString n.str).typ.scale = n.typ.scale) ∧
      newNumericFromBytes n.typ (numericBytes n) = .ok (n, []) ∧
      ∀ n2 : Numeric, n2.Normalised → (n.compare n2 = .isEqual ↔ n.value = n2.value) :=
  have h := numeric_round_trips
    (n := ⟨{ typ := .numeric, size := 4, scale := 3 }, -45, 1000⟩) ⟨by decide, by decide⟩
  ⟨h.1, h.2.1 (by decide +kernel), h.2.2⟩

/-- An `i16` is negative for a length of 32768, which is not a length. -/
theorem readMagnitude_long {length : Nat} (hlow : 2 ^ 15 ≤ length) (hhigh : length < 2 ^ 16)
    (rest : Bytes) : readMagnitude (writeInt 2 length ++ rest) = .error pastEnd := by
  have hwritten : writeInt 2 length = bigEndian 2 length := by
    rw [writeInt]
    congr 1
    omega
  have hread : Reads (readInt 2) (writeInt 2 length) (signed 2 length) := by
    rw [hwritten]
    exact (reads_readNat hhigh).bind_pure
  have hnegative : signed 2 length < 0 := by
    rw [signed]
    split_ifs <;> omega
  refine hread.bind_error ?_
  rw [readLength, if_pos hnegative]
  rfl

theorem length_magnitudeBytes_pow (k : Nat) : (magnitudeBytes (256 ^ k)).length = k + 1 := by
  have hpow : 256 ^ k = 2 ^ (8 * k) := by
    rw [Nat.pow_mul]
  rw [magnitudeBytes, length_bigEndian, hpow, Nat.size_pow]
  omega

theorem newNumericFromBytes_long (typ : DataType) {n : Numeric} (hpositive : 0 < n.numerator)
    (hlow : 2 ^ 15 ≤ (magnitudeBytes n.numerator.natAbs).length)
    (hhigh : (magnitudeBytes n.numerator.natAbs).length < 2 ^ 16) :
    newNumericFromBytes typ (numericBytes n) = .error pastEnd := by
  have hzero : n.isZero = false := beq_eq_false_iff_ne.mpr hpositive.ne'
  have hnegative : n.isNegative = false := decide_eq_false hpositive.le.not_gt
  unfold newNumericFromBytes numericBytes
  rw [hzero, hnegative, if_neg (by decide)]
  refine (reads_readU8 0).bind_error ?_
  rw [if_neg (by decide)]
  change (readMagnitude (_ ++ _ ++ _) >>= _) = _
  rw [List.append_assoc, readMagnitude_long hlow hhigh]
  rfl

/-- An integer of `k + 1` bytes. -/
def powerNumeric (k : Nat) : Numeric := ⟨{ typ := .numeric }, 256 ^ k, 1⟩

theorem newNumericFromBytes_powerNumeric {k : Nat} (hlow : 2 ^ 15 ≤ k + 1)
    (hhigh : k + 1 < 2 ^ 16) :
    newNumericFromBytes (powerNumeric k).typ (numericBytes (powerNumeric k)) =
      .error pastEnd := by
  have hpositive : 0 < (powerNumeric k).numerator := by
    rw [powerNumeric]
    positivity
  have hlength : (magnitudeBytes (powerNumeric k).numerator.natAbs).length = k + 1 := by
    have hnat : (powerNumeric k).numerator.natAbs = 256 ^ k := Int.natAbs_pow 256 k
    rw [hnat, length_magnitudeBytes_pow]
  exact newNumericFromBytes_long _ hpositive (by rwa [hlength]) (by rwa [hlength])

theorem not_numeric_round_trips_long : (powerNumeric 32767).Normalised ∧
    newNumericFromBytes (powerNumeric 32767).typ (numericBytes (powerNumeric 32767)) =
      .error pastEnd :=
  ⟨⟨by decide, rfl⟩, newNumericFromBytes_powerNumeric (by decide) (by decide)⟩

end Vsql
