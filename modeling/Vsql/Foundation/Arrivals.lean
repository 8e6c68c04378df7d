import Mathlib.Data.List.TakeWhile
import Vsql.Foundation.Reader

/-!
# Input that arrives in parts

A program keeps what it has received and waits for more when that is not enough.  It
reads the same values as a reader of the whole input, however the input was cut into
parts, and leaves the rest of its state alone.
-/

namespace Vsql.Foundation

/-- What was received and not read yet, and the parts that are still to arrive.  An empty
part is the end. -/
structure Arriving (τ : Type) where
  received : List τ
  arrivals : List (List τ)

namespace Arriving

variable {τ : Type}

/-- All that can still be read. -/
def rest (s : Arriving τ) : List τ :=
  s.received ++ (s.arrivals.takeWhile (!·.isEmpty)).flatten

/-- Waits until `n` items have been received; not so if there is an end before. -/
def fill (n : Nat) (received : List τ) : List (List τ) → Bool × Arriving τ
  | [] => (n ≤ received.length, ⟨received, []⟩)
  | part :: arrivals =>
      if received.length < n then
        if part.isEmpty then (false, ⟨received, arrivals⟩)
        else fill n (received ++ part) arrivals
      else (true, ⟨received, part :: arrivals⟩)

theorem fill_spec (n : Nat) (received : List τ) (arrivals : List (List τ)) :
    (fill n received arrivals).1 = decide (n ≤ (rest ⟨received, arrivals⟩).length) ∧
      ((fill n received arrivals).1 = true →
        (fill n received arrivals).2.rest = rest ⟨received, arrivals⟩ ∧
          n ≤ (fill n received arrivals).2.received.length) := by
  induction arrivals generalizing received with
  | nil => simp [fill, rest]
  | cons part arrivals ih =>
      simp only [fill]
      split
      · next hshort =>
          split
          · next hend => simp [rest, hend, hshort]
          · next hpart =>
              have hrest :
                  rest ⟨received ++ part, arrivals⟩ = rest ⟨received, part :: arrivals⟩ := by
                simp [rest, hpart]
              rw [← hrest]
              exact ih (received ++ part)
      · next hlong =>
          have hle : n ≤ (rest ⟨received, part :: arrivals⟩).length := by
            simp only [rest, List.length_append]
            omega
          refine ⟨(decide_eq_true hle).symm, fun _ => ⟨rfl, ?_⟩⟩
          exact Nat.le_of_not_lt hlong

end Arriving

/-! ## A program and a reader -/

section Follows

variable {ε ε' σ τ φ α β : Type} {view : σ → List τ} {frame : σ → φ}

/-- What a step of the program gives, and what the reader gives. -/
inductive AgreesAt (view : σ → List τ) (frame : σ → φ) (s : σ) :
    EStateM.Result ε σ α → Except ε' (α × List τ) → Prop where
  | ok {a : α} {s' : σ} (h : frame s' = frame s) :
      AgreesAt view frame s (.ok a s') (.ok (a, view s'))
  | error {e : ε} {e' : ε'} {s' : σ} (h : frame s' = frame s) :
      AgreesAt view frame s (.error e s') (.error e')

/-- The program reads as `r` does from the view of its state, and keeps its frame. -/
def Follows (view : σ → List τ) (frame : σ → φ) (x : EStateM ε σ α) (r : Reader ε' τ α) : Prop :=
  ∀ s, AgreesAt view frame s (x s) (r (view s))

theorem follows_pure (a : α) :
    Follows view frame (pure a : EStateM ε σ α) (pure a : Reader ε' τ α) := by
  intro s
  exact .ok rfl

theorem follows_throw (e : ε) (e' : ε') :
    Follows view frame (throw e : EStateM ε σ α) (throw e' : Reader ε' τ α) := by
  intro s
  exact .error rfl

theorem AgreesAt.bind {x : EStateM ε σ α} {r : Reader ε' τ α} {f : α → EStateM ε σ β}
    {g : α → Reader ε' τ β} {s : σ} (h : AgreesAt view frame s (x s) (r (view s)))
    (hf : ∀ a s', r (view s) = .ok (a, view s') →
      AgreesAt view frame s' (f a s') (g a (view s'))) :
    AgreesAt view frame s ((x >>= f) s) ((r >>= g) (view s)) := by
  change AgreesAt view frame s (EStateM.bind x f s) (r (view s) >>= fun p => g p.1 p.2)
  unfold EStateM.bind
  generalize x s = result at h
  generalize r (view s) = read at h hf
  cases h with
  | error hframe => exact .error hframe
  | @ok a s' hframe =>
      change AgreesAt view frame s (f a s') (g a (view s'))
      have hsecond := hf a s' rfl
      generalize f a s' = result' at hsecond
      generalize g a (view s') = read' at hsecond
      cases hsecond with
      | ok hframe' => exact .ok (hframe'.trans hframe)
      | error hframe' => exact .error (hframe'.trans hframe)

/-- The text of a reader's error does not matter. -/
theorem AgreesAt.of_error {s : σ} {result : EStateM.Result ε σ α} {e e' : ε'}
    (h : AgreesAt view frame s result (.error e)) : AgreesAt view frame s result (.error e') := by
  cases h with
  | error hframe => exact .error hframe

theorem Follows.bind {x : EStateM ε σ α} {r : Reader ε' τ α} {f : α → EStateM ε σ β}
    {g : α → Reader ε' τ β} (h : Follows view frame x r)
    (hf : ∀ a, Follows view frame (f a) (g a)) : Follows view frame (x >>= f) (r >>= g) := by
  intro s
  exact (h s).bind fun a s' _ => hf a s'

theorem Follows.map {x : EStateM ε σ α} {r : Reader ε' τ α} (f : α → β)
    (h : Follows view frame x r) : Follows view frame (f <$> x) (f <$> r) := by
  rw [map_eq_pure_bind, map_eq_pure_bind]
  exact h.bind fun a => follows_pure (f a)

theorem Follows.ite {c : Prop} [Decidable c] {x y : EStateM ε σ α} {r q : Reader ε' τ α}
    (hx : Follows view frame x r) (hy : Follows view frame y q) :
    Follows view frame (if c then x else y) (if c then r else q) := by
  split
  · exact hx
  · exact hy

/-- Steps that depend on the length of what is left. -/
theorem Follows.sized {x : Nat → EStateM ε σ α} {r : Nat → Reader ε' τ α}
    (h : ∀ n, Follows view frame (x n) (r n)) :
    Follows view frame (fun s => x (view s).length s) (fun input => r input.length input) := by
  intro s
  exact h (view s).length s

end Follows

end Vsql.Foundation
