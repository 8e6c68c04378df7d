import Mathlib.Order.Nat

/-!
# Matching with wildcards

A pattern is read from the first position of a word to the last one.  Some elements take a
run, which may be empty, between two places where a run can start; each other element moves
to at most one position, and keeps the order of the positions that it moves from.  When a run
is found, how far the runs before it went no longer matters, so it is enough to come back to
the last one.
-/

namespace Vsql.Foundation

structure PatternReader (α : Type) where
  size : Nat
  starts : Nat → Prop
  takesRun : α → Bool
  step : α → Nat → Option Nat
  starts_le : ∀ {i}, starts i → i ≤ size
  step_lt_step : ∀ {a i j i' j'}, step a i = some j → step a i' = some j' → i < i' → j < j'
  step_le : ∀ {a i j}, step a i = some j → j ≤ size

namespace PatternReader

variable {α : Type} (R : PatternReader α)

/-- The pattern can be read from the position to the last one. -/
def Matches : List α → Nat → Prop
  | [], i => i = R.size
  | a :: pat, i =>
      if R.takesRun a then R.starts i ∧ ∃ j, i ≤ j ∧ R.starts j ∧ Matches pat j
      else ∃ j, R.step a i = some j ∧ Matches pat j

/-- The pattern can be read from a later position where a run can end. -/
def Later (pat : List α) (i : Nat) : Prop := ∃ j, i < j ∧ R.starts j ∧ R.Matches pat j

/-- Where elements that do not take a run lead to. -/
def walk : List α → Nat → Option Nat
  | [], i => some i
  | a :: pat, i => (R.step a i).bind (walk pat)

variable {R}

theorem matches_of_takesRun {a : α} {pat : List α} {i : Nat} (ha : R.takesRun a) :
    R.Matches (a :: pat) i ↔ R.starts i ∧ ∃ j, i ≤ j ∧ R.starts j ∧ R.Matches pat j := by
  rw [Matches, if_pos ha]

theorem matches_of_step {a : α} {pat : List α} {i : Nat} (ha : R.takesRun a = false) :
    R.Matches (a :: pat) i ↔ ∃ j, R.step a i = some j ∧ R.Matches pat j := by
  rw [Matches, if_neg (by simp [ha])]

theorem walk_append (seg pat : List α) (i : Nat) :
    R.walk (seg ++ pat) i = (R.walk seg i).bind (R.walk pat) := by
  induction seg generalizing i with
  | nil => rfl
  | cons a seg ih =>
      simp only [List.cons_append, walk]
      cases R.step a i with
      | none => rfl
      | some j => exact ih j

theorem walk_lt_walk {seg : List α} {i j i' j' : Nat} (h : R.walk seg i = some j)
    (h' : R.walk seg i' = some j') (hlt : i < i') : j < j' := by
  induction seg generalizing i i' with
  | nil =>
      cases h
      cases h'
      exact hlt
  | cons a seg ih =>
      obtain ⟨m, hm, h⟩ := Option.bind_eq_some_iff.mp h
      obtain ⟨m', hm', h'⟩ := Option.bind_eq_some_iff.mp h'
      exact ih h h' (R.step_lt_step hm hm' hlt)

theorem matches_walk {seg pat : List α} (hseg : ∀ a ∈ seg, R.takesRun a = false) {i : Nat} :
    R.Matches (seg ++ pat) i ↔ ∃ j, R.walk seg i = some j ∧ R.Matches pat j := by
  induction seg generalizing i with
  | nil => simp [walk]
  | cons a seg ih =>
      rw [List.forall_mem_cons] at hseg
      simp only [List.cons_append, matches_of_step hseg.1, ih hseg.2, walk,
        Option.bind_eq_some_iff]
      constructor
      · rintro ⟨m, hm, j, hj, hpat⟩
        exact ⟨j, ⟨m, hm, hj⟩, hpat⟩
      · rintro ⟨j, ⟨m, hm, hj⟩, hpat⟩
        exact ⟨m, hm, j, hj, hpat⟩

theorem walk_le {seg : List α} {i j : Nat} (hi : i ≤ R.size) (h : R.walk seg i = some j) :
    j ≤ R.size := by
  induction seg generalizing i with
  | nil =>
      cases h
      exact hi
  | cons a seg ih =>
      obtain ⟨m, hm, h⟩ := Option.bind_eq_some_iff.mp h
      exact ih (R.step_le hm) h

/-! ## Coming back to the last run -/

theorem matches_takesRun_iff {a : α} {pat : List α} {i : Nat} (ha : R.takesRun a)
    (hi : R.starts i) : R.Matches (a :: pat) i ↔ R.Matches pat i ∨ R.Later pat i := by
  rw [matches_of_takesRun ha]
  constructor
  · rintro ⟨-, j, hij, hj, hpat⟩
    obtain rfl | hlt := hij.eq_or_lt
    · exact .inl hpat
    · exact .inr ⟨j, hlt, hj, hpat⟩
  · rintro (hpat | ⟨j, hij, hj, hpat⟩)
    · exact ⟨hi, i, le_rfl, hi, hpat⟩
    · exact ⟨hi, j, hij.le, hj, hpat⟩

/-- The run takes no more than up to the first place where it can end, or goes on. -/
theorem later_iff {pat : List α} {i k : Nat} (hik : i < k) (hk : R.starts k)
    (hfirst : ∀ j, i < j → R.starts j → k ≤ j) :
    R.Later pat i ↔ R.Matches pat k ∨ R.Later pat k := by
  constructor
  · rintro ⟨j, hij, hj, hpat⟩
    obtain rfl | hlt := (hfirst j hij hj).eq_or_lt
    · exact .inl hpat
    · exact .inr ⟨j, hlt, hj, hpat⟩
  · rintro (hpat | ⟨j, hkj, hj, hpat⟩)
    · exact ⟨k, hik, hk, hpat⟩
    · exact ⟨j, hik.trans hkj, hj, hpat⟩

variable {seg pat : List α} {p i : Nat}

/-- A run that has been found takes what an earlier one could have taken more. -/
theorem matches_of_later (hseg : ∀ a ∈ seg, R.takesRun a = false)
    (hwalk : R.walk seg p = some i) {a : α} (ha : R.takesRun a) (hi : R.starts i)
    (h : R.Later (seg ++ a :: pat) p) : R.Matches (a :: pat) i := by
  obtain ⟨p', hlt, -, hpat⟩ := h
  obtain ⟨i', hi', hpat⟩ := (matches_walk hseg).mp hpat
  obtain ⟨-, j, hij, hj, hpat⟩ := (matches_of_takesRun ha).mp hpat
  have hle := walk_lt_walk hwalk hi' hlt
  exact (matches_of_takesRun ha).mpr ⟨hi, j, by omega, hj, hpat⟩

/-- When the last position has been reached there is no later one to come back to. -/
theorem not_later_of_walk (hseg : ∀ a ∈ seg, R.takesRun a = false)
    (hwalk : R.walk seg p = some R.size) : ¬R.Later (seg ++ pat) p := by
  rintro ⟨p', hlt, hstarts, hpat⟩
  obtain ⟨i', hi', -⟩ := (matches_walk hseg).mp hpat
  have hle := walk_le (R.starts_le hstarts) hi'
  have hgt := walk_lt_walk hwalk hi' hlt
  omega

end PatternReader
end Vsql.Foundation
