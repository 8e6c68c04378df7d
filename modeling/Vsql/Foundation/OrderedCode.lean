import Mathlib.Data.List.Lex
import Mathlib.Data.Nat.Log
import Mathlib.Order.Basic
import Mathlib.Tactic.Ring

/-!
# Codes that keep an order

A code writes values as strings of letters, so that the lexicographic order of
the strings is the order of the values.  The property that composes is stronger
than that: `Before a b` says that `a` and `b` differ in a letter, and that `a`
has the smaller one.  Whatever follows the two strings does not matter then, so
the codes of several values can be written one after the other.
-/

namespace Vsql.Foundation.OrderedCode

variable {β : Type} [LinearOrder β]

/-! ## Strings that differ in a letter -/

def Before (a b : List β) : Prop :=
  ∃ p x y s t, a = p ++ x :: s ∧ b = p ++ y :: t ∧ x < y

theorem Before.of_heads {x y : β} (h : x < y) (s t : List β) :
    Before (x :: s) (y :: t) :=
  ⟨[], x, y, s, t, rfl, rfl, h⟩

theorem Before.append {a b : List β} (h : Before a b) (s t : List β) :
    Before (a ++ s) (b ++ t) := by
  obtain ⟨p, x, y, s', t', rfl, rfl, hxy⟩ := h
  exact ⟨p, x, y, s' ++ s, t' ++ t, by simp, by simp, hxy⟩

theorem Before.prepend {a b : List β} (h : Before a b) (p : List β) :
    Before (p ++ a) (p ++ b) := by
  obtain ⟨q, x, y, s, t, rfl, rfl, hxy⟩ := h
  exact ⟨p ++ q, x, y, s, t, by simp, by simp, hxy⟩

theorem Before.cons {a b : List β} (h : Before a b) (x : β) :
    Before (x :: a) (x :: b) :=
  h.prepend [x]

theorem Before.lt {a b : List β} (h : Before a b) : a < b := by
  obtain ⟨p, x, y, s, t, rfl, rfl, hxy⟩ := h
  induction p with
  | nil => exact List.cons_lt_cons_iff.mpr (.inl hxy)
  | cons z p ih => exact List.cons_lt_cons_iff.mpr (.inr ⟨rfl, ih⟩)

/-- A letter by letter map that reverses the letters reverses the strings. -/
theorem Before.map_of_reverses {γ : Type} [LinearOrder γ] {f : β → γ}
    (hf : ∀ x y, x < y → f y < f x) {a b : List β} (h : Before a b) :
    Before (b.map f) (a.map f) := by
  obtain ⟨p, x, y, s, t, rfl, rfl, hxy⟩ := h
  exact ⟨p.map f, f y, f x, t.map f, s.map f, by simp, by simp, hf x y hxy⟩

theorem Before.map {γ : Type} [LinearOrder γ] {f : β → γ} {a b : List β}
    (hf : ∀ x ∈ a, ∀ y ∈ b, x < y → f x < f y) (h : Before a b) :
    Before (a.map f) (b.map f) := by
  obtain ⟨p, x, y, s, t, rfl, rfl, hxy⟩ := h
  exact ⟨p.map f, f x, f y, s.map f, t.map f, by simp, by simp,
    hf x (by simp) y (by simp) hxy⟩

/-- Strings of one length differ in a letter unless they are the same. -/
theorem before_of_lt {a b : List β} (hlen : a.length = b.length) (h : a < b) :
    Before a b := by
  induction a generalizing b with
  | nil =>
      cases b with
      | nil => exact absurd h (List.not_lt_nil _)
      | cons y b => simp at hlen
  | cons x a ih =>
      cases b with
      | nil => simp at hlen
      | cons y b =>
          obtain hxy | ⟨rfl, hab⟩ := List.cons_lt_cons_iff.mp h
          · exact Before.of_heads hxy a b
          · exact (ih (by simpa using hlen) hab).cons x

theorem before_trichotomy {a b : List β} (hlen : a.length = b.length) :
    Before a b ∨ a = b ∨ Before b a := by
  obtain h | h | h := lt_trichotomy a b
  · exact .inl (before_of_lt hlen h)
  · exact .inr (.inl h)
  · exact .inr (.inr (before_of_lt hlen.symm h))

/-! ## Ranges of strings -/

theorem prefix_le {a b : List β} (h : a <+: b) : a ≤ b := by
  obtain ⟨s, rfl⟩ := h
  induction a with
  | nil => exact not_lt.mp (List.not_lt_nil _)
  | cons x a ih =>
      refine not_lt.mp fun hlt => ?_
      obtain h | ⟨-, h⟩ := List.cons_lt_cons_iff.mp hlt
      · exact lt_irrefl x h
      · exact absurd h (not_lt.mpr ih)

theorem Before.asymm {a b : List β} (h : Before a b) : ¬Before b a :=
  fun h' => lt_irrefl a (h.lt.trans h'.lt)

theorem Before.not_isPrefix {a b : List β} (h : Before a b) : ¬a <+: b := by
  rintro ⟨r, rfl⟩
  obtain ⟨p, x, y, s, t, rfl, hb, hxy⟩ := h
  rw [List.append_assoc] at hb
  exact hxy.ne (List.cons.inj (List.append_cancel_left hb)).1

/-- The code of one value, and the code of the other one or the start of it. -/
def Comparable (a b : List β) : Prop := a <+: b ∨ Before a b ∨ Before b a

theorem Comparable.of_nil (b : List β) : Comparable [] b := .inl (List.nil_prefix)

theorem Comparable.refl (a : List β) : Comparable a a := .inl (List.prefix_refl a)

theorem Comparable.of_trichotomy {a b : List β} (h : Before a b ∨ a = b ∨ Before b a) :
    Comparable a b := by
  obtain hab | rfl | hab := h
  · exact .inr (.inl hab)
  · exact .refl a
  · exact .inr (.inr hab)

theorem Comparable.append_le_iff {a b : List β} (h : Comparable a b) (p s : List β) :
    p ++ a ≤ p ++ (b ++ s) ↔ ¬Before b a := by
  obtain h | h | h := h
  · refine iff_of_true (prefix_le ?_) fun hba => hba.lt.not_ge (prefix_le h)
    exact List.prefix_append_right_inj p |>.mpr (h.trans (List.prefix_append b s))
  · refine iff_of_true ?_ h.asymm
    have hlt := ((h.append [] s).prepend p).lt.le
    rwa [List.append_nil] at hlt
  · refine iff_of_false (not_le.mpr ?_) (not_not.mpr h)
    have hlt := ((h.append s []).prepend p).lt
    rwa [List.append_nil] at hlt

theorem Comparable.le_iff {a b : List β} (h : Comparable a b) : a ≤ b ↔ ¬Before b a := by
  simpa using h.append_le_iff [] []

/-! ## Numbers in a fixed number of digits -/

/-- The last `width` digits of `n`, most significant first. -/
def fixedWidth (base : Nat) : Nat → Nat → List Nat
  | 0, _ => []
  | width + 1, n => fixedWidth base width (n / base) ++ [n % base]

@[simp] theorem length_fixedWidth (base width n : Nat) :
    (fixedWidth base width n).length = width := by
  induction width generalizing n with
  | zero => rfl
  | succ width ih => simp [fixedWidth, ih]

theorem lt_of_mem_fixedWidth {base : Nat} (hbase : 0 < base) {width n d : Nat}
    (h : d ∈ fixedWidth base width n) : d < base := by
  induction width generalizing n with
  | zero => simp [fixedWidth] at h
  | succ width ih =>
      rw [fixedWidth, List.mem_append, List.mem_singleton] at h
      obtain h | rfl := h
      · exact ih h
      · exact Nat.mod_lt n hbase

theorem before_fixedWidth {base : Nat} {width m n : Nat} (h : m < n)
    (hn : n < base ^ width) :
    Before (fixedWidth base width m) (fixedWidth base width n) := by
  induction width generalizing m n with
  | zero =>
      have hzero : n = 0 := by simpa using hn
      omega
  | succ width ih =>
      have hbase : 0 < base := by
        refine Nat.pos_of_ne_zero fun hzero => ?_
        simp [hzero] at hn
      have hdiv : n / base < base ^ width := by
        rw [Nat.div_lt_iff_lt_mul hbase]
        simpa [Nat.pow_succ] using hn
      obtain hlt | heq := lt_or_eq_of_le (Nat.div_le_div_right (c := base) h.le)
      · exact (ih hlt hdiv).append [m % base] [n % base]
      · have hmod : m % base < n % base := by
          have hm := Nat.div_add_mod m base
          have hn := Nat.div_add_mod n base
          rw [heq] at hm
          omega
        rw [fixedWidth, fixedWidth, heq]
        exact (Before.of_heads hmod [] []).prepend _

/-- The decimal digits of `n`, as it is printed. -/
def decimal (n : Nat) : List Nat := fixedWidth 10 (Nat.log 10 n + 1) n

theorem length_decimal (n : Nat) : (decimal n).length = Nat.log 10 n + 1 :=
  length_fixedWidth _ _ _

theorem before_decimal {m n : Nat} (h : m < n)
    (hlen : (decimal m).length = (decimal n).length) :
    Before (decimal m) (decimal n) := by
  have hlog : Nat.log 10 m = Nat.log 10 n := by
    simpa [length_decimal] using hlen
  have hn : n < 10 ^ (Nat.log 10 n + 1) := Nat.lt_pow_succ_log_self (by omega) n
  have hm := before_fixedWidth h hn
  rwa [decimal, hlog]

/-! ## Digits without the zeros at their end -/

def dropZeros (l : List Nat) : List Nat := (l.reverse.dropWhile (· == 0)).reverse

/-- Each digit plus one, and a zero at the end. -/
def terminated (l : List Nat) : List Nat := l.map (· + 1) ++ [0]

theorem dropZeros_append_of_ne {p s : List Nat} {x : Nat} (hx : x ≠ 0) :
    ∃ s', dropZeros (p ++ x :: s) = p ++ x :: s' := by
  have hrev : (p ++ x :: s).reverse = s.reverse ++ x :: p.reverse := by simp
  have hdrop : ∀ l : List Nat, ∃ l', (l ++ x :: p.reverse).dropWhile (· == 0) =
      l' ++ x :: p.reverse := by
    intro l
    induction l with
    | nil => exact ⟨[], by simp [hx]⟩
    | cons y l ih =>
        by_cases hy : y = 0
        · obtain ⟨l', hl'⟩ := ih
          exact ⟨l', by simpa [hy] using hl'⟩
        · exact ⟨y :: l, by simp [hy]⟩
  obtain ⟨l', hl'⟩ := hdrop s.reverse
  refine ⟨l'.reverse, ?_⟩
  rw [dropZeros, hrev, hl']
  simp

theorem prefix_dropZeros (l : List Nat) : dropZeros l <+: l := by
  have h : l.reverse.dropWhile (· == 0) <:+ l.reverse := List.dropWhile_suffix _
  rw [dropZeros]
  simpa using List.reverse_prefix.mpr h

theorem before_terminated_of_prefix {p q : List Nat} (y : Nat) (t : List Nat)
    (h : q <+: p) :
    Before (terminated q) (terminated (p ++ y :: t)) := by
  obtain ⟨r, rfl⟩ := h
  cases r with
  | nil =>
      have hhead : Before [0] ((y :: t).map (· + 1) ++ [0]) :=
        Before.of_heads (Nat.succ_pos y) [] _
      simpa [terminated] using hhead.prepend (q.map (· + 1))
  | cons z r =>
      have hhead : Before [0] (((z :: r) ++ y :: t).map (· + 1) ++ [0]) :=
        Before.of_heads (Nat.succ_pos z) [] _
      simpa [terminated] using hhead.prepend (q.map (· + 1))

/-- The zeros at the end of a number do not matter for where it is sorted. -/
theorem before_terminated_dropZeros {a b : List Nat} (h : Before a b) :
    Before (terminated (dropZeros a)) (terminated (dropZeros b)) := by
  obtain ⟨p, x, y, s, t, rfl, rfl, hxy⟩ := h
  obtain ⟨t', ht'⟩ := dropZeros_append_of_ne (p := p) (s := t)
    (show y ≠ 0 by omega)
  rw [ht']
  have hpre := prefix_dropZeros (p ++ x :: s)
  by_cases hlen : (dropZeros (p ++ x :: s)).length ≤ p.length
  · have hq : dropZeros (p ++ x :: s) <+: p :=
      List.prefix_of_prefix_length_le hpre (List.prefix_append p _) hlen
    exact before_terminated_of_prefix y t' hq
  · have hq : p ++ [x] <+: dropZeros (p ++ x :: s) :=
      List.prefix_of_prefix_length_le (by simp) hpre (by simp; omega)
    obtain ⟨s', hs'⟩ := hq
    have hhead : Before ((x + 1) :: (s'.map (· + 1) ++ [0]))
        ((y + 1) :: (t'.map (· + 1) ++ [0])) := Before.of_heads (by omega) _ _
    rw [← hs']
    simpa [terminated] using hhead.prepend (p.map (· + 1))

end Vsql.Foundation.OrderedCode
