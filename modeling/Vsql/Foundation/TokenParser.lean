import Mathlib.Data.List.Forall2
import Mathlib.Data.List.TakeWhile

/-!
# Parsers of tokens

A parser takes tokens from the front of a list.  What it yields is said of the tokens that
it has used, so the parts of a grammar are put together as the parsers are.
-/

namespace Vsql.Foundation

variable {σ τ ε α β : Type}

abbrev Parser (σ τ ε α : Type) : Type := StateT (σ × List τ) (Except ε) α

namespace Parser

/-! ## Parsers -/

def peek : Parser σ τ ε (Option τ) := fun s => .ok (s.2.head?, s)

def next (e : ε) : Parser σ τ ε τ := fun s =>
  match s.2 with
  | [] => .error e
  | t :: ts => .ok (t, (s.1, ts))

def update (f : σ → σ) : Parser σ τ ε Unit := fun s => .ok ((), (f s.1, s.2))

def takeWhile (p : τ → Bool) : Parser σ τ ε (List τ) := fun s =>
  .ok (s.2.takeWhile p, (s.1, s.2.dropWhile p))

def expect [DecidableEq τ] (e : ε) (t : τ) : Parser σ τ ε Unit := do
  let u ← next e
  if u = t then pure () else throw e

/-- Whether the token is next, which is then taken. -/
def accept [DecidableEq τ] (e : ε) (t : τ) : Parser σ τ ε Bool := do
  let next ← peek
  if next = some t then do
    expect e t
    pure true
  else pure false

def manyFrom (goesOn : Option τ → Bool) (f : Parser σ τ ε α) : Nat → Parser σ τ ε (List α)
  | 0 => pure []
  | fuel + 1 => do
      let next ← peek
      if goesOn next then do
        let a ← f
        let as ← manyFrom goesOn f fuel
        pure (a :: as)
      else pure []

/-- Repeats the parser, which uses a token each time, while the next token says so. -/
def many (goesOn : Option τ → Bool) (f : Parser σ τ ε α) : Parser σ τ ε (List α) := fun s =>
  manyFrom goesOn f s.2.length s

/-! ## What a parser yields -/

def Yields (f : Parser σ τ ε α) (R : List τ → α → Prop) : Prop :=
  ∀ s a s', f s = .ok (a, s') → ∃ used, s.2 = used ++ s'.2 ∧ R used a

variable {R : List τ → α → Prop} {f : Parser σ τ ε α}

theorem Yields.mono {R' : List τ → α → Prop} (h : Yields f R)
    (hR : ∀ used a, R used a → R' used a) :
    Yields f R' := by
  intro s a s' hf
  obtain ⟨used, hused, ha⟩ := h s a s' hf
  exact ⟨used, hused, hR used a ha⟩

theorem yields_pure {a : α} (h : R [] a) : Yields (pure a : Parser σ τ ε α) R := by
  intro s b s' hb
  cases hb
  exact ⟨[], rfl, h⟩

theorem yields_throw (e : ε) : Yields (throw e : Parser σ τ ε α) R := by
  intro s a s' h
  cases h

theorem run_bind {g : α → Parser σ τ ε β} {s s' : σ × List τ} {b : β}
    (h : (f >>= g) s = .ok (b, s')) : ∃ a s₁, f s = .ok (a, s₁) ∧ g a s₁ = .ok (b, s') := by
  have hbind : (f >>= g) s = (f s >>= fun p => g p.1 p.2) := rfl
  rw [hbind] at h
  cases hfs : f s with
  | error e =>
      rw [hfs] at h
      cases h
  | ok p =>
      rw [hfs] at h
      exact ⟨p.1, p.2, rfl, h⟩

/-- One parser after another. -/
theorem Yields.bind {g : α → Parser σ τ ε β} {S : List τ → β → Prop} (hf : Yields f R)
    (hg : ∀ u a, R u a → Yields (g a) fun v b => S (u ++ v) b) : Yields (f >>= g) S := by
  intro s b s' h
  obtain ⟨a, s₁, hfs, hgs⟩ := run_bind h
  obtain ⟨u, hu, ha⟩ := hf s a s₁ hfs
  obtain ⟨v, hv, hb⟩ := hg u a ha s₁ b s' hgs
  exact ⟨u ++ v, by rw [hu, hv, List.append_assoc], hb⟩

theorem yields_peek : Yields (peek : Parser σ τ ε (Option τ)) fun used _ => used = [] := by
  intro s a s' h
  cases h
  exact ⟨[], rfl, rfl⟩

theorem yields_next (e : ε) : Yields (next e : Parser σ τ ε τ) fun used t => used = [t] := by
  intro s t s' h
  unfold next at h
  split at h
  · cases h
  · next u ts hts =>
      cases h
      exact ⟨[t], hts, rfl⟩

theorem yields_update (g : σ → σ) :
    Yields (update g : Parser σ τ ε Unit) fun used _ => used = [] := by
  intro s a s' h
  cases h
  exact ⟨[], rfl, rfl⟩

theorem yields_takeWhile (p : τ → Bool) : Yields (takeWhile p : Parser σ τ ε (List τ))
    fun used ts => used = ts ∧ ∀ t ∈ ts, p t := by
  intro s ts s' h
  cases h
  exact ⟨_, (List.takeWhile_append_dropWhile).symm, rfl, fun t ht => List.mem_takeWhile_imp ht⟩

/-- What the repeated parser has used, in parts. -/
theorem yields_many {goesOn : Option τ → Bool} (hf : Yields f R) :
    Yields (many goesOn f) fun used as => ∃ parts, List.Forall₂ R parts as ∧
      used = parts.flatten := by
  have hfrom : ∀ fuel, Yields (manyFrom goesOn f fuel)
      fun used as => ∃ parts, List.Forall₂ R parts as ∧ used = parts.flatten := by
    intro fuel
    induction fuel with
    | zero => exact yields_pure ⟨[], .nil, rfl⟩
    | succ fuel ih =>
        refine yields_peek.bind ?_
        rintro _ next rfl
        split
        · refine hf.bind fun u a ha => ih.bind ?_
          rintro _ as ⟨parts, hparts, rfl⟩
          exact yields_pure ⟨u :: parts, .cons ha hparts, by simp⟩
        · exact yields_pure ⟨[], .nil, rfl⟩
  intro s as s' h
  exact hfrom s.2.length s as s' h

section

variable [DecidableEq τ]

theorem yields_expect (e : ε) (t : τ) :
    Yields (expect e t : Parser σ τ ε Unit) fun used _ => used = [t] := by
  refine (yields_next e).bind fun used u hused => ?_
  split
  · next hu =>
      refine yields_pure ?_
      rw [hused, hu, List.append_nil]
  · exact yields_throw e

theorem yields_accept (e : ε) (t : τ) : Yields (accept e t : Parser σ τ ε Bool)
    fun used b => used = if b then [t] else [] := by
  refine yields_peek.bind ?_
  rintro _ next rfl
  split
  · refine (yields_expect e t).bind ?_
    rintro _ _ rfl
    exact yields_pure rfl
  · exact yields_pure rfl

end

/-! ## How often a parser is repeated -/

/-- The parser uses at least one token. -/
def Advances (f : Parser σ τ ε α) : Prop :=
  ∀ s a s', f s = .ok (a, s') → s'.2.length < s.2.length

theorem Yields.advances (hf : Yields f R) (hne : ∀ a, ¬R [] a) : Advances f := by
  intro s a s' h
  obtain ⟨used, hused, ha⟩ := hf s a s' h
  have hpos : used ≠ [] := by
    rintro rfl
    exact hne a ha
  have hlength := List.length_pos_iff.mpr hpos
  rw [hused, List.length_append]
  omega

theorem manyFrom_succ (goesOn : Option τ → Bool) (f : Parser σ τ ε α) (fuel : Nat)
    (s : σ × List τ) : manyFrom goesOn f (fuel + 1) s =
      if goesOn s.2.head? then do
        let p ← f s
        let q ← manyFrom goesOn f fuel p.2
        .ok (p.1 :: q.1, q.2)
      else .ok ([], s) := by
  change (if goesOn s.2.head? then _ else _ : Parser σ τ ε (List α)) s = _
  split <;> rfl

theorem manyFrom_nil {goesOn : Option τ → Bool} (hnone : goesOn none = false)
    (f : Parser σ τ ε α) (fuel : Nat) {s : σ × List τ} (hs : s.2 = []) :
    manyFrom goesOn f fuel s = .ok ([], s) := by
  cases fuel with
  | zero => rfl
  | succ fuel => simp [manyFrom_succ, hs, hnone]

/-- How often a parser can be repeated does not matter when it uses up the tokens first. -/
theorem manyFrom_congr {goesOn : Option τ → Bool} (hnone : goesOn none = false)
    {f f' : Parser σ τ ε α} (hf : Advances f) {n : Nat}
    (heq : ∀ s : σ × List τ, s.2.length ≤ n → f s = f' s) {fuel fuel' : Nat} {s : σ × List τ}
    (hs : s.2.length ≤ n) (hfuel : s.2.length ≤ fuel) (hfuel' : s.2.length ≤ fuel') :
    manyFrom goesOn f fuel s = manyFrom goesOn f' fuel' s := by
  induction fuel generalizing s fuel' with
  | zero =>
      have hnil := List.length_eq_zero_iff.mp (Nat.le_zero.mp hfuel)
      rw [manyFrom_nil hnone f 0 hnil, manyFrom_nil hnone f' fuel' hnil]
  | succ fuel ih =>
      cases fuel' with
      | zero =>
          have hnil := List.length_eq_zero_iff.mp (Nat.le_zero.mp hfuel')
          rw [manyFrom_nil hnone f _ hnil, manyFrom_nil hnone f' _ hnil]
      | succ fuel' =>
          rw [manyFrom_succ, manyFrom_succ, ← heq s hs]
          split
          · cases hfs : f s with
            | error e => rfl
            | ok p =>
                have hlt := hf s p.1 p.2 hfs
                have hrest : manyFrom goesOn f fuel p.2 = manyFrom goesOn f' fuel' p.2 :=
                  ih (by omega) (by omega) (by omega)
                change (manyFrom goesOn f fuel p.2 >>= _) = (manyFrom goesOn f' fuel' p.2 >>= _)
                rw [hrest]
          · rfl

theorem many_congr {goesOn : Option τ → Bool} (hnone : goesOn none = false)
    {f f' : Parser σ τ ε α} (hf : Advances f) {s : σ × List τ}
    (heq : ∀ s' : σ × List τ, s'.2.length ≤ s.2.length → f s' = f' s') :
    many goesOn f s = many goesOn f' s :=
  manyFrom_congr hnone hf heq le_rfl le_rfl le_rfl

end Parser
end Vsql.Foundation
