import Mathlib.Control.Basic

/-!
# Programs that read ahead

A program asks for an item some way ahead in its input, or uses up the next item, and has
a state of its own.  It does not know where the items come from: a source that gives
the items of a list one after the other, in whatever way it gets them, runs a program as
the list itself does.
-/

namespace Vsql.Foundation

inductive ReadingProgram (σ τ ε α : Type) where
  | done (a : α)
  | fail (e : ε)
  | peek (ahead : Nat) (next : Option τ → ReadingProgram σ τ ε α)
  | skip (next : ReadingProgram σ τ ε α)
  | get (next : σ → ReadingProgram σ τ ε α)
  | set (s : σ) (next : ReadingProgram σ τ ε α)

namespace ReadingProgram

variable {σ τ ε α β : Type}

def bind (p : ReadingProgram σ τ ε α) (f : α → ReadingProgram σ τ ε β) :
    ReadingProgram σ τ ε β :=
  match p with
  | .done a => f a
  | .fail e => .fail e
  | .peek ahead next => .peek ahead fun item => (next item).bind f
  | .skip next => .skip (next.bind f)
  | .get next => .get fun s => (next s).bind f
  | .set s next => .set s (next.bind f)

instance : Monad (ReadingProgram σ τ ε) where
  pure := .done
  bind := bind

def peekItem (ahead : Nat) : ReadingProgram σ τ ε (Option τ) := .peek ahead .done

def skipItem : ReadingProgram σ τ ε Unit := .skip (.done ())

def getState : ReadingProgram σ τ ε σ := .get .done

def setState (s : σ) : ReadingProgram σ τ ε Unit := .set s (.done ())

/-! ## Running a program -/

/-- How a program ends, with its state and what is left of the input. -/
structure Ended (σ ε S α : Type) where
  result : Except ε α
  state : σ
  left : S

/-- What a source does when it is asked.  It has nothing to use up at the end of its input. -/
structure Source (τ S : Type) where
  peek : Nat → S → Option τ × S
  skip : S → Option (τ × S)

variable {S : Type} (advance : τ → σ → σ) (pastEnd : ε)

/-- `advance` is what using up an item does to the state. -/
def run (source : Source τ S) : ReadingProgram σ τ ε α → σ → S → Ended σ ε S α
  | .done a, state, s => ⟨.ok a, state, s⟩
  | .fail e, state, s => ⟨.error e, state, s⟩
  | .peek ahead next, state, s =>
      (next (source.peek ahead s).1).run source state (source.peek ahead s).2
  | .skip next, state, s =>
      match source.skip s with
      | some (item, s) => next.run source (advance item state) s
      | none => ⟨.error pastEnd, state, s⟩
  | .get next, state, s => (next state).run source state s
  | .set state next, _, s => next.run source state s

/-- The items of a list. -/
def items : Source τ (List τ) where
  peek ahead l := (l[ahead]?, l)
  skip
    | [] => none
    | item :: l => some (item, l)

theorem run_bind (source : Source τ S) (p : ReadingProgram σ τ ε α)
    (f : α → ReadingProgram σ τ ε β) (state : σ) (s : S) :
    (p >>= f).run advance pastEnd source state s =
      match p.run advance pastEnd source state s with
      | ⟨.ok a, state, s⟩ => (f a).run advance pastEnd source state s
      | ⟨.error e, state, s⟩ => ⟨.error e, state, s⟩ := by
  change (p.bind f).run advance pastEnd source state s = _
  induction p generalizing state s with
  | done a => rfl
  | fail e => rfl
  | peek ahead next ih => exact ih _ _ _
  | skip next ih =>
      cases hskip : source.skip s with
      | none => simp only [bind, run, hskip]
      | some p =>
          simp only [bind, run, hskip]
          exact ih _ _
  | get next ih => exact ih _ _ _
  | set state' next ih => exact ih _ _

/-! ## Sources that give a list -/

/-- The source gives the items of `rest`, whatever it does to get them.  It has the next
`ready` of them at hand, and only these can be used up. -/
structure Source.Gives (source : Source τ S) (rest : S → List τ) (ready : S → Nat) : Prop where
  item : ∀ ahead s, (source.peek ahead s).1 = (rest s)[ahead]?
  rest_peek : ∀ ahead s, rest (source.peek ahead s).2 = rest s
  ready_le : ∀ ahead s, ready s ≤ ready (source.peek ahead s).2
  lt_ready : ∀ ahead s, ahead < (rest s).length → ahead < ready (source.peek ahead s).2
  skip : ∀ s, 0 < ready s → ∃ item s', source.skip s = some (item, s') ∧
    rest s = item :: rest s' ∧ ready s ≤ ready s' + 1

/-- With the next `ready` items at hand, the program uses up only items that it has seen. -/
def Looks : Nat → ReadingProgram σ τ ε α → Prop
  | _, .done _ => True
  | _, .fail _ => True
  | ready, .peek ahead next =>
      (∀ item, Looks (max ready (ahead + 1)) (next (some item))) ∧ Looks ready (next none)
  | ready, .skip next => 0 < ready ∧ Looks (ready - 1) next
  | ready, .get next => ∀ s, Looks ready (next s)
  | ready, .set _ next => Looks ready next

theorem Looks.mono {p : ReadingProgram σ τ ε α} {k n : Nat} (h : Looks k p) (hkn : k ≤ n) :
    Looks n p := by
  induction p generalizing k n with
  | done a => trivial
  | fail e => trivial
  | peek ahead next ih => exact ⟨fun item => ih _ (h.1 item) (by omega), ih _ h.2 hkn⟩
  | skip next ih => exact ⟨by have := h.1; omega, ih h.2 (by omega)⟩
  | get next ih => exact fun s => ih s (h s) hkn
  | set s next ih => exact ih h hkn

theorem Looks.bind {p : ReadingProgram σ τ ε α} {f : α → ReadingProgram σ τ ε β} {k : Nat}
    (h : Looks k p) (hf : ∀ a, Looks 0 (f a)) : Looks k (p >>= f) := by
  change Looks k (p.bind f)
  induction p generalizing k with
  | done a => exact (hf a).mono (Nat.zero_le k)
  | fail e => trivial
  | peek ahead next ih => exact ⟨fun item => ih _ (h.1 item), ih _ h.2⟩
  | skip next ih => exact ⟨h.1, ih h.2⟩
  | get next ih => exact fun s => ih s (h s)
  | set s next ih => exact ih h

theorem looks_peek {k ahead : Nat} {f : Option τ → ReadingProgram σ τ ε α}
    (hsome : ∀ item, Looks (max k (ahead + 1)) (f (some item))) (hnone : Looks k (f none)) :
    Looks k (peekItem ahead >>= f) := ⟨hsome, hnone⟩

theorem looks_skip {k : Nat} {f : Unit → ReadingProgram σ τ ε α} (h : Looks k (f ())) :
    Looks (k + 1) (skipItem >>= f) := ⟨Nat.succ_pos k, h⟩

theorem looks_get {k : Nat} {f : σ → ReadingProgram σ τ ε α} (h : ∀ s, Looks k (f s)) :
    Looks k (getState >>= f) := h

theorem looks_set {k : Nat} {s : σ} {f : Unit → ReadingProgram σ τ ε α} (h : Looks k (f ())) :
    Looks k (setState s >>= f) := h

def Ended.map {S' : Type} (f : S → S') (e : Ended σ ε S α) : Ended σ ε S' α :=
  ⟨e.result, e.state, f e.left⟩

/-- A program runs on the source as it runs on the list. -/
theorem run_eq_items {source : Source τ S} {rest : S → List τ} {ready : S → Nat}
    (h : source.Gives rest ready) {p : ReadingProgram σ τ ε α} {k : Nat} (hlooks : Looks k p)
    (state : σ) {s : S} (hready : k ≤ ready s) :
    (p.run advance pastEnd source state s).map rest =
      p.run advance pastEnd items state (rest s) := by
  induction p generalizing k state s with
  | done a => rfl
  | fail e => rfl
  | peek ahead next ih =>
      have hmore := Nat.le_trans hready (h.ready_le ahead s)
      unfold run
      rw [h.item]
      cases hnext : (rest s)[ahead]? with
      | none =>
          have hrun := ih none hlooks.2 state hmore
          rw [h.rest_peek] at hrun
          rw [hrun]
          exact congrArg (fun item => (next item).run advance pastEnd items state (rest s))
            hnext.symm
      | some item =>
          have hlt := h.lt_ready ahead s (List.getElem?_eq_some_iff.1 hnext).1
          have hrun := ih (some item) (hlooks.1 item) state (Nat.max_le.2 ⟨hmore, hlt⟩)
          rw [h.rest_peek] at hrun
          rw [hrun]
          exact congrArg (fun item => (next item).run advance pastEnd items state (rest s))
            hnext.symm
  | skip next ih =>
      obtain ⟨item, s', hskip, hrest, hless⟩ := h.skip s (Nat.lt_of_lt_of_le hlooks.1 hready)
      unfold run
      rw [hskip, hrest]
      exact ih hlooks.2 _ (by omega)
  | get next ih => exact ih state (hlooks state) state hready
  | set state' next ih => exact ih hlooks state' hready

/-- The results of a program that is run again and again, with the state after each. -/
def runs (source : Source τ S) (p : ReadingProgram σ τ ε α) :
    Nat → σ → S → List (Except ε α × σ)
  | 0, _, _ => []
  | n + 1, state, s =>
      let ended := p.run advance pastEnd source state s
      (ended.result, ended.state) :: runs source p n ended.state ended.left

theorem runs_eq_items {source : Source τ S} {rest : S → List τ} {ready : S → Nat}
    (h : source.Gives rest ready) {p : ReadingProgram σ τ ε α} (hlooks : Looks 0 p) (n : Nat)
    (state : σ) (s : S) :
    p.runs advance pastEnd source n state s = p.runs advance pastEnd items n state (rest s) := by
  induction n generalizing state s with
  | zero => rfl
  | succ n ih =>
      have hrun := run_eq_items advance pastEnd h hlooks state (Nat.zero_le (ready s))
      unfold runs
      rw [← hrun]
      exact congrArg _ (ih _ _)

/-- What is left is the end of the list. -/
theorem left_suffix (p : ReadingProgram σ τ ε α) (state : σ) (l : List τ) :
    (p.run advance pastEnd items state l).left <:+ l := by
  induction p generalizing state l with
  | done a => exact List.suffix_refl l
  | fail e => exact List.suffix_refl l
  | peek ahead next ih => exact ih _ _ _
  | skip next ih =>
      cases l with
      | nil => exact List.suffix_refl _
      | cons item l => exact (ih _ _).trans (List.suffix_cons item l)
  | get next ih => exact ih _ _ _
  | set state' next ih => exact ih _ _

/-! ## What a program does with a list -/

variable (failed : ε → Prop) in
/-- From a state, a result and the state and what is left of the list after it meet `Q`, or the
program fails with an error that meets `failed`. -/
def MeetsFrom (p : ReadingProgram σ τ ε α) (state : σ) (l : List τ) (Q : α → σ → List τ → Prop) :
    Prop :=
  match p.run advance pastEnd items state l with
  | ⟨.ok a, state, left⟩ => Q a state left
  | ⟨.error e, _, _⟩ => failed e

section MeetsFrom

variable {advance} {pastEnd} {failed : ε → Prop} {Q : α → σ → List τ → Prop} {state : σ}
  {l : List τ}

theorem meetsFrom_pure {a : α} (h : Q a state l) :
    MeetsFrom advance pastEnd failed (pure a : ReadingProgram σ τ ε α) state l Q := h

theorem MeetsFrom.mono {p : ReadingProgram σ τ ε α} {Q' : α → σ → List τ → Prop}
    (h : MeetsFrom advance pastEnd failed p state l Q)
    (hQ : ∀ a state left, Q a state left → Q' a state left) :
    MeetsFrom advance pastEnd failed p state l Q' := by
  unfold MeetsFrom at h ⊢
  split at h
  · exact hQ _ _ _ h
  · exact h

theorem MeetsFrom.bind {p : ReadingProgram σ τ ε α} {f : α → ReadingProgram σ τ ε β}
    {R : β → σ → List τ → Prop}
    (h : MeetsFrom advance pastEnd failed p state l fun a state left =>
      MeetsFrom advance pastEnd failed (f a) state left R) :
    MeetsFrom advance pastEnd failed (p >>= f) state l R := by
  unfold MeetsFrom at h ⊢
  rw [run_bind]
  split at h
  · next hp =>
      rw [hp]
      exact h
  · next hp =>
      rw [hp]
      exact h

theorem meetsFrom_get {f : σ → ReadingProgram σ τ ε α}
    (h : MeetsFrom advance pastEnd failed (f state) state l Q) :
    MeetsFrom advance pastEnd failed (getState >>= f) state l Q := h

theorem meetsFrom_set {s : σ} {f : Unit → ReadingProgram σ τ ε α}
    (h : MeetsFrom advance pastEnd failed (f ()) s l Q) :
    MeetsFrom advance pastEnd failed (setState s >>= f) state l Q := h

end MeetsFrom

/-! ## Programs that keep a part of the state -/

variable {κ : Type}

variable (kept : σ → κ) (failed : ε → Prop) in
/-- In any state, of which a part is kept, a result and what is left of the list meet `Q`, or the
program fails with an error that meets `failed`. -/
def Meets (p : ReadingProgram σ τ ε α) (l : List τ) (Q : α → List τ → Prop) : Prop :=
  ∀ state, MeetsFrom advance pastEnd failed p state l fun a state' left =>
    kept state' = kept state ∧ Q a left

variable {advance} {pastEnd} {kept : σ → κ} {failed : ε → Prop} {Q : α → List τ → Prop}
  {l : List τ}

theorem meets_pure {a : α} (h : Q a l) :
    Meets advance pastEnd kept failed (pure a : ReadingProgram σ τ ε α) l Q := fun _ => ⟨rfl, h⟩

theorem meets_fail {e : ε} (h : failed e) :
    Meets advance pastEnd kept failed (.fail e : ReadingProgram σ τ ε α) l Q := fun _ => h

theorem Meets.mono {p : ReadingProgram σ τ ε α} {Q' : α → List τ → Prop}
    (h : Meets advance pastEnd kept failed p l Q) (hQ : ∀ a left, Q a left → Q' a left) :
    Meets advance pastEnd kept failed p l Q' :=
  fun state => (h state).mono fun a _ left hleft => ⟨hleft.1, hQ a left hleft.2⟩

/-- Each of the runs ends with a result, or with an error that meets `failed`. -/
theorem runs_of_meetsFrom {p : ReadingProgram σ τ ε α}
    (h : ∀ state left, left <:+ l →
      MeetsFrom advance pastEnd failed p state left fun _ _ _ => True) (n : Nat) (state : σ) :
    ∀ run ∈ p.runs advance pastEnd items n state l, ∀ e, run.1 = .error e → failed e := by
  induction n generalizing state l with
  | zero =>
      intro run hrun
      cases hrun
  | succ n ih =>
      have hnow := h state l (List.suffix_refl l)
      have hsuffix := left_suffix advance pastEnd p state l
      unfold runs
      rw [List.forall_mem_cons]
      constructor
      · intro e he
        unfold MeetsFrom at hnow
        split at hnow
        · next hp =>
            rw [hp] at he
            cases he
        · next hp =>
            rw [hp] at he
            cases he
            exact hnow
      · exact ih (fun state left hleft => h state left (hleft.trans hsuffix)) _

theorem Meets.bind {p : ReadingProgram σ τ ε α} {f : α → ReadingProgram σ τ ε β}
    {R : β → List τ → Prop}
    (h : Meets advance pastEnd kept failed p l fun a left =>
      Meets advance pastEnd kept failed (f a) left R) :
    Meets advance pastEnd kept failed (p >>= f) l R := by
  intro state
  apply MeetsFrom.bind
  apply (h state).mono
  intro a state' left hleft
  apply (hleft.2 state').mono
  intro b state'' left' hleft'
  exact ⟨hleft'.1.trans hleft.1, hleft'.2⟩

/-- In one state, after a program that keeps a part of it. -/
theorem Meets.bindFrom {p : ReadingProgram σ τ ε α} {f : α → ReadingProgram σ τ ε β} {state : σ}
    {Q : α → List τ → Prop} {R : β → σ → List τ → Prop}
    (h : Meets advance pastEnd kept failed p l Q)
    (hf : ∀ a state' left, kept state' = kept state → Q a left →
      MeetsFrom advance pastEnd failed (f a) state' left R) :
    MeetsFrom advance pastEnd failed (p >>= f) state l R := by
  apply MeetsFrom.bind
  exact (h state).mono fun a state' left hleft => hf a state' left hleft.1 hleft.2

theorem meets_peek {ahead : Nat} {f : Option τ → ReadingProgram σ τ ε α}
    (h : Meets advance pastEnd kept failed (f l[ahead]?) l Q) :
    Meets advance pastEnd kept failed (peekItem ahead >>= f) l Q := h

theorem meets_skip (hkept : ∀ item s, kept (advance item s) = kept s) {item : τ}
    {f : Unit → ReadingProgram σ τ ε α} (h : Meets advance pastEnd kept failed (f ()) l Q) :
    Meets advance pastEnd kept failed (skipItem >>= f) (item :: l) Q := by
  intro state
  apply (h (advance item state)).mono
  intro a state' left hleft
  exact ⟨hleft.1.trans (hkept item state), hleft.2⟩

/-- A change of the rest of the state. -/
theorem meets_change (change : σ → σ) (hkept : ∀ s, kept (change s) = kept s)
    {f : σ → ReadingProgram σ τ ε α} (h : ∀ s, Meets advance pastEnd kept failed (f s) l Q) :
    Meets advance pastEnd kept failed
      (getState >>= fun s => setState (change s) >>= fun _ => f s) l Q := by
  intro state
  apply (h state (change state)).mono
  intro a state' left hleft
  exact ⟨hleft.1.trans (hkept state), hleft.2⟩

end ReadingProgram
end Vsql.Foundation
