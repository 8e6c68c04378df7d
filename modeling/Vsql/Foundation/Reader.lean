import Mathlib.Control.Basic

/-!
# Readers

A reader takes a value from the start of its input and leaves the rest.  What was
written in several steps is read back by the same steps, each of which takes exactly
what was written for it, whatever comes after.
-/

namespace Vsql.Foundation

abbrev Reader (ε τ α : Type) := StateT (List τ) (Except ε) α

namespace Reader

variable {ε τ α β : Type}

theorem bind_apply (r : Reader ε τ α) (f : α → Reader ε τ β) (input : List τ) :
    (r >>= f) input = r input >>= fun p => f p.1 p.2 := rfl

theorem map_apply (f : α → β) (r : Reader ε τ α) (input : List τ) :
    (f <$> r) input = r input >>= fun p => Except.ok (f p.1, p.2) := rfl

/-- The next `n` items. -/
def take (pastEnd : ε) (n : Nat) : Reader ε τ (List τ) := fun input =>
  if n ≤ input.length then .ok (input.take n, input.drop n) else .error pastEnd

/-- `a` is read from all of `written`, and from nothing after it. -/
def Reads (r : Reader ε τ α) (written : List τ) (a : α) : Prop :=
  ∀ rest, r (written ++ rest) = .ok (a, rest)

theorem Reads.run {r : Reader ε τ α} {written : List τ} {a : α} (h : Reads r written a) :
    r written = .ok (a, []) := by
  simpa using h []

theorem reads_pure (a : α) : Reads (pure a : Reader ε τ α) [] a := fun _ => rfl

theorem Reads.bind {r : Reader ε τ α} {f : α → Reader ε τ β} {w w' : List τ} {a : α} {b : β}
    (h : Reads r w a) (hf : Reads (f a) w' b) : Reads (r >>= f) (w ++ w') b := by
  intro rest
  change (r (w ++ w' ++ rest) >>= fun p => f p.1 p.2) = _
  rw [List.append_assoc, h]
  exact hf rest

/-- A last step that reads nothing. -/
theorem Reads.bind_nil {r : Reader ε τ α} {f : α → Reader ε τ β} {w : List τ} {a : α} {b : β}
    (h : Reads r w a) (hf : Reads (f a) [] b) : Reads (r >>= f) w b := by
  have hbind := h.bind hf
  rwa [List.append_nil] at hbind

/-- A first step that reads nothing. -/
theorem Reads.nil_bind {r : Reader ε τ α} {f : α → Reader ε τ β} {w : List τ} {a : α} {b : β}
    (h : Reads r [] a) (hf : Reads (f a) w b) : Reads (r >>= f) w b :=
  h.bind hf

theorem Reads.bind_pure {r : Reader ε τ α} {f : α → β} {w : List τ} {a : α}
    (h : Reads r w a) : Reads (r >>= fun x => pure (f x)) w (f a) :=
  h.bind_nil (reads_pure (f a))

/-- What comes after a first step fails. -/
theorem Reads.bind_error {r : Reader ε τ α} {f : α → Reader ε τ β} {w rest : List τ} {a : α}
    {e : ε} (h : Reads r w a) (hf : f a rest = .error e) :
    (r >>= f) (w ++ rest) = .error e := by
  change (r (w ++ rest) >>= fun p => f p.1 p.2) = _
  rw [h]
  exact hf

theorem reads_lift {x : Except ε α} {a : α} (h : x = .ok a) :
    Reads (StateT.lift x : Reader ε τ α) [] a := by
  subst h
  exact fun _ => rfl

theorem Reads.map {r : Reader ε τ α} (f : α → β) {w : List τ} {a : α}
    (h : Reads r w a) : Reads (f <$> r) w (f a) := by
  rw [map_eq_pure_bind]
  exact h.bind_pure

theorem reads_take (pastEnd : ε) (w : List τ) : Reads (take pastEnd w.length) w w := by
  intro rest
  simp [take]

theorem reads_take_of_length (pastEnd : ε) {w : List τ} {n : Nat} (h : w.length = n) :
    Reads (take pastEnd n) w w := by
  subst h
  exact reads_take pastEnd w

/-- The next `n` items are read by `r`, which may leave some of them. -/
def within (pastEnd : ε) (n : Nat) (r : Reader ε τ α) : Reader ε τ α := do
  let items ← take pastEnd n
  let (a, _) ← StateT.lift (r.run items)
  pure a

theorem Reads.within (pastEnd : ε) {r : Reader ε τ α} {w : List τ} {a : α} {n : Nat}
    (h : Reads r w a) (hn : w.length = n) : Reads (within pastEnd n r) w a := by
  intro rest
  have htake := reads_take_of_length pastEnd hn rest
  change (Reader.take pastEnd n (w ++ rest) >>= fun p => _) = _
  rw [htake]
  change ((r w >>= fun q => .ok (q, rest)) >>= fun q => .ok (q.1.1, q.2)) = _
  rw [h.run]
  rfl

/-- The same reader some times. -/
def times (r : Reader ε τ α) : Nat → Reader ε τ (List α)
  | 0 => pure []
  | n + 1 => do
      let a ← r
      let rest ← times r n
      pure (a :: rest)

theorem reads_times {r : Reader ε τ β} {write : α → List τ} {value : α → β} {l : List α}
    (h : ∀ a ∈ l, Reads r (write a) (value a)) :
    Reads (times r l.length) (l.flatMap write) (l.map value) := by
  induction l with
  | nil => exact reads_pure []
  | cons a l ih =>
      rw [List.flatMap_cons]
      have hrest := ih fun b hb => h b (List.mem_cons_of_mem a hb)
      exact (h a List.mem_cons_self).bind hrest.bind_pure

/-- What a reader gives does not depend on how much of the rest is there. -/
theorem Reads.unique {r : Reader ε τ α} {w : List τ} {a b : α} (ha : Reads r w a)
    (hb : Reads r w b) : a = b := by
  have h := (ha []).symm.trans (hb [])
  simp only [Except.ok.injEq, Prod.mk.injEq] at h
  exact h.1

/-! ## Writing again what was read -/

/-- After `pre` was read, `r` takes from the input what `write` writes for its result. -/
def Restores (pre : List τ) (r : Reader ε τ α) (write : α → List τ) : Prop :=
  ∀ input a rest, r input = .ok (a, rest) → pre ++ input = write a ++ rest

theorem restores_pure {pre : List τ} {a : α} {write : α → List τ} (h : pre = write a) :
    Restores pre (pure a : Reader ε τ α) write := by
  intro input b rest hrun
  cases hrun
  rw [h]

theorem restores_throw (pre : List τ) (e : ε) (write : α → List τ) :
    Restores pre (throw e : Reader ε τ α) write := by
  intro input b rest h
  cases h

theorem Restores.bind {r : Reader ε τ α} {f : α → Reader ε τ β} {pre : List τ}
    {write : α → List τ} {write' : β → List τ} (h : Restores [] r write)
    (hf : ∀ a, Restores (pre ++ write a) (f a) write') : Restores pre (r >>= f) write' := by
  intro input b rest hrun
  change (r input >>= fun p => f p.1 p.2) = _ at hrun
  cases hfirst : r input with
  | error e =>
      rw [hfirst] at hrun
      cases hrun
  | ok p =>
      rw [hfirst] at hrun
      have hinput := h input p.1 p.2 hfirst
      rw [List.nil_append] at hinput
      rw [hinput, ← List.append_assoc]
      exact hf p.1 p.2 b rest hrun

theorem Restores.ite {c : Prop} [Decidable c] {r s : Reader ε τ α} {pre : List τ}
    {write : α → List τ} (hr : Restores pre r write) (hs : Restores pre s write) :
    Restores pre (if c then r else s) write := by
  split
  · exact hr
  · exact hs

/-- Every result has the property. -/
def Gives (P : α → Prop) (r : Reader ε τ α) : Prop :=
  ∀ input a rest, r input = .ok (a, rest) → P a

theorem gives_pure {P : α → Prop} {a : α} (h : P a) : Gives P (pure a : Reader ε τ α) := by
  intro input b rest hrun
  cases hrun
  exact h

theorem gives_throw (P : α → Prop) (e : ε) : Gives P (throw e : Reader ε τ α) := by
  intro input b rest h
  cases h

theorem Gives.ite {P : α → Prop} {c : Prop} [Decidable c] {r s : Reader ε τ α}
    (hr : c → Gives P r) (hs : ¬c → Gives P s) : Gives P (if c then r else s) := by
  split
  · next hc => exact hr hc
  · next hc => exact hs hc

theorem Gives.bind {P : β → Prop} {r : Reader ε τ α} {f : α → Reader ε τ β}
    (hf : ∀ a, Gives P (f a)) : Gives P (r >>= f) := by
  intro input b rest hrun
  change (r input >>= fun p => f p.1 p.2) = _ at hrun
  cases hfirst : r input with
  | error e =>
      rw [hfirst] at hrun
      cases hrun
  | ok p =>
      rw [hfirst] at hrun
      exact hf p.1 p.2 b rest hrun

/-- At least `n` items are taken. -/
def Takes (n : Nat) (r : Reader ε τ α) : Prop :=
  ∀ input a rest, r input = .ok (a, rest) → rest.length + n ≤ input.length

theorem takes_pure (a : α) : Takes 0 (pure a : Reader ε τ α) := by
  intro input b rest h
  cases h
  exact Nat.le_refl _

theorem takes_throw (n : Nat) (e : ε) : Takes n (throw e : Reader ε τ α) := by
  intro input b rest h
  cases h

theorem takes_take (pastEnd : ε) (n : Nat) : Takes n (take pastEnd n : Reader ε τ (List τ)) := by
  intro input a rest h
  unfold take at h
  split at h
  · cases h
    rw [List.length_drop]
    omega
  · cases h

theorem Takes.bind {r : Reader ε τ α} {f : α → Reader ε τ β} {m n : Nat} (h : Takes m r)
    (hf : ∀ a, Takes n (f a)) : Takes (m + n) (r >>= f) := by
  intro input b rest hrun
  rw [bind_apply] at hrun
  cases hfirst : r input with
  | error e =>
      rw [hfirst] at hrun
      cases hrun
  | ok p =>
      rw [hfirst] at hrun
      have hm := h input p.1 p.2 hfirst
      have hn := hf p.1 p.2 b rest hrun
      omega

theorem Takes.map {r : Reader ε τ α} (f : α → β) {n : Nat} (h : Takes n r) :
    Takes n (f <$> r) := by
  rw [map_eq_pure_bind]
  exact h.bind fun a => takes_pure (f a)

theorem Takes.mono {r : Reader ε τ α} {m n : Nat} (h : Takes n r) (hle : m ≤ n) : Takes m r :=
  fun input a rest hrun => Nat.le_trans (Nat.add_le_add_left hle _) (h input a rest hrun)

theorem Takes.ite {c : Prop} [Decidable c] {r s : Reader ε τ α} {n : Nat} (hr : Takes n r)
    (hs : Takes n s) : Takes n (if c then r else s) := by
  split
  · exact hr
  · exact hs

/-- What comes after the input is left for later. -/
def Extends (r : Reader ε τ α) : Prop :=
  ∀ input a rest more, r input = .ok (a, rest) → r (input ++ more) = .ok (a, rest ++ more)

theorem extends_pure (a : α) : Extends (pure a : Reader ε τ α) := by
  intro input b rest more h
  cases h
  rfl

theorem extends_throw (e : ε) : Extends (throw e : Reader ε τ α) := by
  intro input b rest more h
  cases h

theorem extends_take (pastEnd : ε) (n : Nat) :
    Extends (take pastEnd n : Reader ε τ (List τ)) := by
  intro input a rest more h
  unfold take at h ⊢
  split at h
  · next hn =>
      cases h
      rw [if_pos (by rw [List.length_append]; omega), List.take_append_of_le_length hn,
        List.drop_append_of_le_length hn]
  · cases h

theorem Extends.bind {r : Reader ε τ α} {f : α → Reader ε τ β} (h : Extends r)
    (hf : ∀ a, Extends (f a)) : Extends (r >>= f) := by
  intro input b rest more hrun
  rw [bind_apply] at hrun ⊢
  cases hfirst : r input with
  | error e =>
      rw [hfirst] at hrun
      cases hrun
  | ok p =>
      rw [hfirst] at hrun
      rw [h input p.1 p.2 more hfirst]
      exact hf p.1 p.2 b rest more hrun

theorem Extends.map {r : Reader ε τ α} (f : α → β) (h : Extends r) : Extends (f <$> r) := by
  rw [map_eq_pure_bind]
  exact h.bind fun a => extends_pure (f a)

theorem Extends.ite {c : Prop} [Decidable c] {r s : Reader ε τ α} (hr : Extends r)
    (hs : Extends s) : Extends (if c then r else s) := by
  split
  · exact hr
  · exact hs

/-- Nothing is read from a part of what was written. -/
theorem Extends.error_of_prefix {r : Reader ε τ α} (h : Extends r) {cut rest : List τ} {a : α}
    (hreads : r (cut ++ rest) = .ok (a, [])) (hrest : rest ≠ []) (b : α) (later : List τ) :
    r cut ≠ .ok (b, later) := by
  intro hcut
  have hrun := h cut b later rest hcut
  rw [hreads] at hrun
  simp only [Except.ok.injEq, Prod.mk.injEq] at hrun
  exact hrest (List.append_eq_nil_iff.mp hrun.2.symm).2

end Reader

end Vsql.Foundation
