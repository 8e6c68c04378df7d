import Mathlib.Order.Basic

/-!
# Loops that may not end

`loop` repeats a step that says when there is nothing more to do, or fails.  The
loop ends if a measure becomes smaller in every step; and it does not end if
every step leads from one state of a set to another one of it.
-/

namespace Vsql.Foundation.Loop

variable {State Fault : Type}

/-- What a round of a loop comes to: nothing when the loop has ended. -/
abbrev Step (State Fault : Type) : Type := Nat → State → Option (Except Fault State)

/-- The loop from round `i`, or nothing if it has not ended after `fuel` rounds. -/
def loop (step : Step State Fault) : Nat → Nat → State → Option (Except Fault State)
  | 0, i, s =>
      match step i s with
      | none => some (.ok s)
      | some (.error e) => some (.error e)
      | some (.ok _) => none
  | fuel + 1, i, s =>
      match step i s with
      | none => some (.ok s)
      | some (.error e) => some (.error e)
      | some (.ok s') => loop step fuel (i + 1) s'

/-- The state before round `i`, if the loop gets there. -/
def stateAt (step : Step State Fault) (s : State) : Nat → Option State
  | 0 => some s
  | i + 1 =>
      match stateAt step s i with
      | none => none
      | some s' =>
          match step i s' with
          | some (.ok s'') => some s''
          | _ => none

variable {step : Step State Fault}

theorem stateAt_succ_eq_some {s t : State} {i : Nat} (h : stateAt step s (i + 1) = some t) :
    ∃ s', stateAt step s i = some s' ∧ step i s' = some (.ok t) := by
  rw [stateAt] at h
  cases hs : stateAt step s i with
  | none => simp [hs] at h
  | some s' =>
      rw [hs] at h
      simp only at h
      split at h
      · next hstep => exact ⟨s', rfl, by rw [hstep, Option.some.inj h]⟩
      · cases h

/-- The states of a run all satisfy what holds first and is preserved. -/
theorem stateAt_invariant {Inv : Nat → State → Prop} {s : State} (hfirst : Inv 0 s)
    (hstep : ∀ i s' t, Inv i s' → step i s' = some (.ok t) → Inv (i + 1) t) :
    ∀ i t, stateAt step s i = some t → Inv i t := by
  intro i
  induction i with
  | zero =>
      intro t ht
      rw [← Option.some.inj ht]
      exact hfirst
  | succ i ih =>
      intro t ht
      obtain ⟨s', hs', hlast⟩ := stateAt_succ_eq_some ht
      exact hstep i s' t (ih s' hs') hlast

/-- The result of a loop comes from a state that satisfies what is preserved. -/
theorem loop_result {Inv : Nat → State → Prop} {result : Except Fault State}
    (hstep : ∀ i s t, Inv i s → step i s = some (.ok t) → Inv (i + 1) t) {fuel i : Nat} {s : State}
    (hs : Inv i s) (h : loop step fuel i s = some result) :
    ∃ j t, Inv j t ∧ (step j t = none ∧ result = .ok t ∨
      ∃ e, step j t = some (.error e) ∧ result = .error e) := by
  induction fuel generalizing i s with
  | zero =>
      rw [loop] at h
      split at h
      · next hnone => exact ⟨i, s, hs, .inl ⟨hnone, (Option.some.inj h).symm⟩⟩
      · next e herror => exact ⟨i, s, hs, .inr ⟨e, herror, (Option.some.inj h).symm⟩⟩
      · cases h
  | succ fuel ih =>
      rw [loop] at h
      split at h
      · next hnone => exact ⟨i, s, hs, .inl ⟨hnone, (Option.some.inj h).symm⟩⟩
      · next e herror => exact ⟨i, s, hs, .inr ⟨e, herror, (Option.some.inj h).symm⟩⟩
      · next t hok => exact ih (hstep i s t hs hok) h

/-- The loop ends when a measure of the states of its run becomes smaller. -/
theorem exists_loop {μ : Nat → State → Nat} {s : State}
    (hmeasure : ∀ i s' t, stateAt step s i = some s' → step i s' = some (.ok t) →
      μ (i + 1) t < μ i s') : ∃ result, loop step (μ 0 s) 0 s = some result := by
  have hfrom : ∀ fuel i s', stateAt step s i = some s' → μ i s' ≤ fuel →
      ∃ result, loop step fuel i s' = some result := by
    intro fuel
    induction fuel with
    | zero =>
        intro i s' hs' hle
        rw [loop]
        cases hstep : step i s' with
        | none => exact ⟨_, rfl⟩
        | some out =>
            cases out with
            | error e => exact ⟨_, rfl⟩
            | ok t =>
                have hlt := hmeasure i s' t hs' hstep
                omega
    | succ fuel ih =>
        intro i s' hs' hle
        rw [loop]
        cases hstep : step i s' with
        | none => exact ⟨_, rfl⟩
        | some out =>
            cases out with
            | error e => exact ⟨_, rfl⟩
            | ok t =>
                have hlt := hmeasure i s' t hs' hstep
                refine ih (i + 1) t ?_ (by omega)
                rw [stateAt, hs']
                simp only [hstep]
  exact hfrom (μ 0 s) 0 s rfl (Nat.le_refl _)

/-- A run has at most as many rounds as the measure says. -/
theorem stateAt_le {μ : Nat → State → Nat} {s : State}
    (hmeasure : ∀ i s' t, stateAt step s i = some s' → step i s' = some (.ok t) →
      μ (i + 1) t < μ i s') : ∀ i t, stateAt step s i = some t → i + μ i t ≤ μ 0 s := by
  intro i
  induction i with
  | zero =>
      intro t ht
      simp [← Option.some.inj ht]
  | succ i ih =>
      intro t ht
      obtain ⟨s', hs', hlast⟩ := stateAt_succ_eq_some ht
      have hle := ih s' hs'
      have hlt := hmeasure i s' t hs' hlast
      omega

/-- The loop does not end when it stays in a set of states where there is more to do. -/
theorem loop_eq_none {Stays : State → Prop}
    (hstep : ∀ i s, Stays s → ∃ t, step i s = some (.ok t) ∧ Stays t) :
    ∀ fuel i s, Stays s → loop step fuel i s = none := by
  intro fuel
  induction fuel with
  | zero =>
      intro i s hs
      obtain ⟨t, ht, -⟩ := hstep i s hs
      rw [loop, ht]
  | succ fuel ih =>
      intro i s hs
      obtain ⟨t, ht, hstays⟩ := hstep i s hs
      rw [loop, ht]
      exact ih (i + 1) t hstays

end Vsql.Foundation.Loop
