import Mathlib.Data.Set.Basic
import Mathlib.Logic.Function.Iterate

/-!
# Steps that never go back

What is reached in exactly `k` steps of a relation that never goes back is the same for
every large `k`: a long walk has to stay somewhere, and can stay there for one step more or
less.
-/

namespace Vsql.Foundation

section

variable {α : Type} {r : α → α → Prop}

/-- `j` is reached from `i` in exactly `k` steps. -/
def Steps (r : α → α → Prop) : Nat → α → α → Prop
  | 0, i, j => i = j
  | k + 1, i, j => ∃ m, r i m ∧ Steps r k m j

theorem steps_add {a b : Nat} {i j : α} :
    Steps r (a + b) i j ↔ ∃ m, Steps r a i m ∧ Steps r b m j := by
  induction a generalizing i with
  | zero => simp [Steps]
  | succ a ih =>
      rw [show a + 1 + b = a + b + 1 by omega]
      simp only [Steps, ih]
      constructor
      · rintro ⟨m, him, m', hm, hm'⟩
        exact ⟨m', ⟨m, him, hm⟩, hm'⟩
      · rintro ⟨m', ⟨m, him, hm⟩, hm'⟩
        exact ⟨m, him, m', hm, hm'⟩

theorem steps_one {i j : α} : Steps r 1 i j ↔ r i j := by
  simp [Steps]

/-- What one step reaches. -/
def image (r : α → α → Prop) (S : Set α) : Set α := {j | ∃ i ∈ S, r i j}

theorem image_iterate (k : Nat) (S : Set α) :
    (image r)^[k] S = {j | ∃ i ∈ S, Steps r k i j} := by
  induction k with
  | zero => simp [Steps]
  | succ k ih =>
      rw [Function.iterate_succ_apply', ih]
      ext j
      simp only [image, Set.mem_ofPred_eq, steps_add, steps_one]
      constructor
      · rintro ⟨m, ⟨i, hi, hm⟩, hj⟩
        exact ⟨i, hi, m, hm, hj⟩
      · rintro ⟨i, hi, m, hm, hj⟩
        exact ⟨m, ⟨i, hi, hm⟩, hj⟩

end

variable {r : Nat → Nat → Prop} {n : Nat}

/-- A walk either goes on in every step, or stays somewhere. -/
theorem Steps.le_or_stays (hr : ∀ i j, r i j → i ≤ j) {k i j : Nat} (h : Steps r k i j) :
    i + k ≤ j ∨ ∃ a b m, a + 1 + b = k ∧ Steps r a i m ∧ r m m ∧ Steps r b m j := by
  induction k generalizing i with
  | zero => exact .inl (le_of_eq h)
  | succ k ih =>
      obtain ⟨m, him, hmj⟩ := h
      obtain rfl | hlt := (hr i m him).eq_or_lt
      · exact .inr ⟨0, k, i, by omega, rfl, him, hmj⟩
      · obtain hle | ⟨a, b, m', hk, ha, hm', hb⟩ := ih hmj
        · left
          omega
        · exact .inr ⟨a + 1, b, m', by omega, ⟨m, him, ha⟩, hm', hb⟩

theorem Steps.le_of_pos (hn : ∀ i j, r i j → j ≤ n) {k i j : Nat} (h : Steps r (k + 1) i j) :
    j ≤ n := by
  obtain ⟨m, -, hj⟩ := steps_add.mp h
  exact hn m j (steps_one.mp hj)

theorem steps_succ_iff (hr : ∀ i j, r i j → i ≤ j ∧ j ≤ n) {k i j : Nat} (hk : n < k) :
    Steps r (k + 1) i j ↔ Steps r k i j := by
  have hforward : ∀ i j, r i j → i ≤ j := fun i j h => (hr i j h).1
  have hbound : ∀ i j, r i j → j ≤ n := fun i j h => (hr i j h).2
  obtain ⟨k, rfl⟩ : ∃ k', k = k' + 1 := ⟨k - 1, by omega⟩
  constructor
  · intro h
    have hj := h.le_of_pos hbound
    obtain hle | ⟨a, b, m, hab, ha, hm, hb⟩ := h.le_or_stays hforward
    · omega
    · rw [show k + 1 = a + b by omega]
      exact steps_add.mpr ⟨m, ha, hb⟩
  · intro h
    have hj := h.le_of_pos hbound
    obtain hle | ⟨a, b, m, hab, ha, hm, hb⟩ := h.le_or_stays hforward
    · omega
    · rw [show k + 1 + 1 = a + (1 + (1 + b)) by omega]
      refine steps_add.mpr ⟨m, ha, steps_add.mpr ⟨m, steps_one.mpr hm, ?_⟩⟩
      exact steps_add.mpr ⟨m, steps_one.mpr hm, hb⟩

/-- The sets that are reached settle. -/
theorem image_iterate_succ (hr : ∀ i j, r i j → i ≤ j ∧ j ≤ n) {k : Nat} (hk : n < k)
    (S : Set Nat) : (image r)^[k + 1] S = (image r)^[k] S := by
  rw [image_iterate, image_iterate]
  ext j
  simp only [Set.mem_ofPred_eq, steps_succ_iff hr hk]

/-- A set that is left as it is by one more step is what every further step reaches. -/
theorem iterate_eq_of_fixed {α : Type} {f : α → α} {x : α} {k m : Nat}
    (h : f (f^[k] x) = f^[k] x) (hk : k ≤ m) : f^[m] x = f^[k] x := by
  obtain ⟨d, rfl⟩ := Nat.exists_eq_add_of_le' hk
  rw [Function.iterate_add_apply, Function.iterate_fixed h]

end Vsql.Foundation
