import Mathlib.Logic.Basic

/-!
# Computations that change a state and may fail

`EStateM` keeps the state in which a computation failed.  A run of a sequence
is taken apart by `bind_eq_ok` and `bind_eq_error`, so that no proof has to
unfold the monad.
-/

namespace Vsql.Foundation.StateError

variable {ε σ α β : Type}

theorem bind_eq_ok {x : EStateM ε σ α} {f : α → EStateM ε σ β} {s t : σ}
    {b : β} :
    (x >>= f) s = .ok b t ↔ ∃ a u, x s = .ok a u ∧ f a u = .ok b t := by
  simp only [bind, EStateM.bind]
  cases x s with
  | error e u => simp
  | ok a u =>
      constructor
      · exact fun h => ⟨a, u, rfl, h⟩
      · rintro ⟨a', u', h, hf⟩
        cases h
        exact hf

theorem bind_eq_error {x : EStateM ε σ α} {f : α → EStateM ε σ β} {s t : σ}
    {e : ε} :
    (x >>= f) s = .error e t ↔
      x s = .error e t ∨ ∃ a u, x s = .ok a u ∧ f a u = .error e t := by
  simp only [bind, EStateM.bind]
  cases x s with
  | error e' u => simp
  | ok a u =>
      constructor
      · exact fun h => .inr ⟨a, u, rfl, h⟩
      · rintro (h | ⟨a', u', h, hf⟩)
        · cases h
        · cases h
          exact hf

@[simp] theorem pure_eq_ok {a b : α} {s t : σ} :
    (pure a : EStateM ε σ α) s = .ok b t ↔ a = b ∧ s = t := by
  simp [pure, EStateM.pure]

@[simp] theorem pure_eq_error {a : α} {s t : σ} {e : ε} :
    (pure a : EStateM ε σ α) s = .error e t ↔ False := by
  simp [pure, EStateM.pure]

/-- Leaving the result away. -/
theorem discard_eq_ok {x : EStateM ε σ α} {s t : σ} {u : PUnit} :
    (discard x) s = .ok u t ↔ ∃ a, x s = .ok a t := by
  constructor
  · intro h
    obtain ⟨a, v, hfirst, hlast⟩ := bind_eq_ok.mp h
    obtain ⟨-, rfl⟩ := pure_eq_ok.mp hlast
    exact ⟨a, hfirst⟩
  · rintro ⟨a, h⟩
    exact bind_eq_ok.mpr ⟨a, t, h, rfl⟩

@[simp] theorem throw_eq_ok {e : ε} {a : α} {s t : σ} :
    (throw e : EStateM ε σ α) s = .ok a t ↔ False := by
  change EStateM.Result.error e s = .ok a t ↔ False
  simp

@[simp] theorem throw_eq_error {e e' : ε} {s t : σ} :
    (throw e : EStateM ε σ α) s = .error e' t ↔ e = e' ∧ s = t := by
  change EStateM.Result.error e s = .error e' t ↔ e = e' ∧ s = t
  simp

@[simp] theorem ofExcept_eq_ok {x : Except ε α} {a : α} {s t : σ} :
    (ofExcept x : EStateM ε σ α) s = .ok a t ↔ x = .ok a ∧ s = t := by
  cases x <;> simp [ofExcept]

@[simp] theorem ofExcept_eq_error {x : Except ε α} {e : ε} {s t : σ} :
    (ofExcept x : EStateM ε σ α) s = .error e t ↔ x = .error e ∧ s = t := by
  cases x <;> simp [ofExcept]

@[simp] theorem get_eq_ok {s t u : σ} :
    (get : EStateM ε σ σ) s = .ok u t ↔ s = u ∧ s = t := by
  change EStateM.Result.ok s s = .ok u t ↔ s = u ∧ s = t
  simp

@[simp] theorem modify_eq_ok {f : σ → σ} {s t : σ} {u : PUnit} :
    (modify f : EStateM ε σ PUnit) s = .ok u t ↔ f s = t := by
  change EStateM.Result.ok PUnit.unit (f s) = .ok u t ↔ f s = t
  simp

/-! ## What every successful run does to the state -/

/-- Two states are related whenever the computation succeeds between them. -/
def Moves (R : σ → σ → Prop) (x : EStateM ε σ α) : Prop :=
  ∀ s a t, x s = .ok a t → R s t

namespace Moves

variable {R : σ → σ → Prop} {x : EStateM ε σ α}

theorem pure (hrefl : ∀ s, R s s) (a : α) :
    Moves R (Pure.pure a : EStateM ε σ α) := by
  intro s b t h
  obtain ⟨-, rfl⟩ := pure_eq_ok.mp h
  exact hrefl s

theorem throw (e : ε) : Moves R (throw e : EStateM ε σ α) := by
  intro s a t h
  cases h

theorem ofExcept (hrefl : ∀ s, R s s) (r : Except ε α) :
    Moves R (ofExcept r : EStateM ε σ α) := by
  intro s a t h
  obtain ⟨-, rfl⟩ := ofExcept_eq_ok.mp h
  exact hrefl s

theorem bind (htrans : ∀ s t u, R s t → R t u → R s u) (hx : Moves R x)
    {f : α → EStateM ε σ β} (hf : ∀ a, Moves R (f a)) : Moves R (x >>= f) := by
  intro s b t h
  obtain ⟨a, u, hfirst, hrest⟩ := bind_eq_ok.mp h
  exact htrans s u t (hx s a u hfirst) (hf a u b t hrest)

theorem ite {c : Prop} [Decidable c] {y : EStateM ε σ α} (hx : Moves R x)
    (hy : Moves R y) : Moves R (if c then x else y) := by
  split
  · exact hx
  · exact hy

end Moves

/-! ## What every run does to the state, however it ends -/

def final : EStateM.Result ε σ α → σ
  | .ok _ s => s
  | .error _ s => s

def succeeds : EStateM.Result ε σ α → Bool
  | .ok _ _ => true
  | .error _ _ => false

theorem exists_eq_ok {r : EStateM.Result ε σ α} (h : succeeds r) : ∃ a, r = .ok a (final r) := by
  cases r with
  | ok a => exact ⟨a, rfl⟩
  | error => cases h

/-- Leaving the result away does not change the state. -/
theorem final_discard (x : EStateM ε σ α) (s : σ) :
    final ((do let _ ← x) s) = final (x s) := by
  simp only [bind, EStateM.bind]
  cases x s <;> rfl

/-- Two states are related whenever the computation ends in the second one. -/
def Always (R : σ → σ → Prop) (x : EStateM ε σ α) : Prop :=
  ∀ s, R s (final (x s))

namespace Always

variable {R : σ → σ → Prop} {x : EStateM ε σ α}

theorem pure (hrefl : ∀ s, R s s) (a : α) :
    Always R (Pure.pure a : EStateM ε σ α) :=
  hrefl

theorem throw (hrefl : ∀ s, R s s) (e : ε) :
    Always R (throw e : EStateM ε σ α) :=
  hrefl

theorem ofExcept (hrefl : ∀ s, R s s) (r : Except ε α) :
    Always R (ofExcept r : EStateM ε σ α) := by
  cases r <;> exact hrefl

theorem modify {f : σ → σ} (hf : ∀ s, R s (f s)) :
    Always R (modify f : EStateM ε σ PUnit) :=
  hf

theorem bind (htrans : ∀ s t u, R s t → R t u → R s u) (hx : Always R x)
    {f : α → EStateM ε σ β} (hf : ∀ a, Always R (f a)) : Always R (x >>= f) := by
  intro s
  have hfirst := hx s
  simp only [Bind.bind, EStateM.bind]
  cases hrun : x s with
  | error e t =>
      rw [hrun] at hfirst
      exact hfirst
  | ok a t =>
      rw [hrun] at hfirst
      exact htrans s t _ hfirst (hf a t)

theorem mono {R' : σ → σ → Prop} (hx : Always R x) (h : ∀ s t, R s t → R' s t) :
    Always R' x :=
  fun s => h s _ (hx s)

theorem moves (hx : Always R x) : Moves R x := by
  intro s a t h
  have hfinal := hx s
  rw [h] at hfinal
  exact hfinal

/-- The rest of a computation only has to be right for the state it reads. -/
theorem get_bind {f : σ → EStateM ε σ β} (hf : ∀ s, R s (final (f s s))) :
    Always R (get >>= f) :=
  hf

theorem ite {c : Prop} [Decidable c] {y : EStateM ε σ α} (hx : Always R x)
    (hy : Always R y) : Always R (if c then x else y) := by
  split
  · exact hx
  · exact hy

end Always

end Vsql.Foundation.StateError
