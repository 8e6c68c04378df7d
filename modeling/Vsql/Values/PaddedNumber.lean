import Vsql.Values.NumericText

/-!
# Numbers of a fixed width

A number is printed with zeros before it, so that all texts of a field have the same length.
A text of digits is the one that its value has with that width.
-/

namespace Vsql

def leftPad (s : Text) (c : Char) (length : Nat) : Text :=
  List.replicate (length - s.length) c ++ s

/-- The number with zeros before it, as in `:04`. -/
def padded (width n : Nat) : Text := leftPad (Nat.toDigits 10 n) '0' width

theorem digits_replicate_zero (n : Nat) : Digits (List.replicate n '0') := by
  intro c hc
  rw [List.eq_of_mem_replicate hc]
  rfl

theorem digits_padded (width n : Nat) : Digits (padded width n) :=
  digits_append.mpr ⟨digits_replicate_zero _, digits_toDigits n⟩

theorem ofDigitChars_padded (width n : Nat) : Nat.ofDigitChars 10 (padded width n) 0 = n := by
  rw [padded, leftPad, Nat.ofDigitChars_append, Nat.ofDigitChars_replicate_zero, Nat.mul_zero,
    Nat.ofDigitChars_ten_toDigits]

theorem length_padded {width n : Nat} (hwidth : 0 < width) (h : n < 10 ^ width) :
    (padded width n).length = width := by
  have hle : (Nat.toDigits 10 n).length ≤ width :=
    (Nat.length_toDigits_le_iff (by omega) hwidth).mpr h
  rw [padded, leftPad, List.length_append, List.length_replicate]
  omega

theorem digit_bounds {c : Char} (h : c.isDigit) : 48 ≤ c.toNat ∧ c.toNat ≤ 57 :=
  Char.isDigit_iff_toNat.mp h

theorem ofDigitChars_singleton (s : Text) (c : Char) :
    Nat.ofDigitChars 10 (s ++ [c]) 0 = 10 * Nat.ofDigitChars 10 s 0 + (c.toNat - 48) := by
  rw [Nat.ofDigitChars_append, Nat.ofDigitChars_cons, Nat.ofDigitChars_nil]
  rfl

theorem ofDigitChars_lt {s : Text} (h : Digits s) : Nat.ofDigitChars 10 s 0 < 10 ^ s.length := by
  induction s using List.reverseRecOn with
  | nil => simp
  | append_singleton s c ih =>
      obtain ⟨hs, hc⟩ := digits_append.mp h
      have hdigit := digit_bounds (hc c (by simp))
      have hlt := ih hs
      rw [ofDigitChars_singleton, List.length_append, List.length_singleton, Nat.pow_succ]
      omega

/-- Texts of digits that are as long as each other denote different numbers. -/
theorem eq_of_ofDigitChars {s t : Text} (hs : Digits s) (ht : Digits t)
    (hlength : s.length = t.length) (h : Nat.ofDigitChars 10 s 0 = Nat.ofDigitChars 10 t 0) :
    s = t := by
  induction s using List.reverseRecOn generalizing t with
  | nil => exact (List.eq_nil_of_length_eq_zero hlength.symm).symm
  | append_singleton s c ih =>
      cases t using List.reverseRecOn with
      | nil => simp at hlength
      | append_singleton t d =>
          obtain ⟨hs, hc⟩ := digits_append.mp hs
          obtain ⟨ht, hd⟩ := digits_append.mp ht
          have hcBounds := digit_bounds (hc c (by simp))
          have hdBounds := digit_bounds (hd d (by simp))
          rw [ofDigitChars_singleton, ofDigitChars_singleton] at h
          rw [List.length_append, List.length_append, List.length_singleton, List.length_singleton,
            Nat.add_right_cancel_iff] at hlength
          have hchar : c = d := Char.toNat_inj.mp (by omega)
          rw [ih hs ht hlength (by omega), hchar]

theorem padded_ofDigitChars {s : Text} (h : Digits s) (hs : s ≠ []) :
    padded s.length (Nat.ofDigitChars 10 s 0) = s := by
  apply eq_of_ofDigitChars (digits_padded _ _) h
  · exact length_padded (List.length_pos_iff.mpr hs) (ofDigitChars_lt h)
  · exact ofDigitChars_padded _ _

theorem take_padded {width n k : Nat} (hwidth : 0 < width) (h : n < 10 ^ width) :
    Nat.ofDigitChars 10 ((padded width n).take k) 0 = n / 10 ^ (width - k) := by
  have hdigits := digits_padded width n
  have hlength := length_padded hwidth h
  have hdrop : ((padded width n).drop k).length = width - k := by rw [List.length_drop, hlength]
  have hlast : Digits ((padded width n).drop k) := fun c hc => hdigits c (List.mem_of_mem_drop hc)
  have hlt := ofDigitChars_lt hlast
  have hvalue := ofDigitChars_padded width n
  rw [← List.take_append_drop k (padded width n), Nat.ofDigitChars_append,
    Nat.ofDigitChars_eq_ofDigitChars_zero, hdrop] at hvalue
  rw [hdrop] at hlt
  conv_rhs => rw [← hvalue]
  rw [Nat.mul_add_div (by positivity), Nat.div_eq_of_lt hlt, Nat.add_zero]

end Vsql
