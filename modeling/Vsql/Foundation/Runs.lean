import Mathlib.Data.List.Induction
import Mathlib.Order.Basic

/-!
# Runs

A system is a step relation on states, labelled with events.  `Reaches` is the
closure of the steps that meet a condition, and `Reaches.invariant` is how
every safety result about a run is proved.  A machine is a system whose steps
are functions with an output; two machines are compared by `simulation`.
-/

namespace Vsql.Foundation

variable {State Event : Type}

/-- The states that are reached by steps that all meet the condition `ok`. -/
inductive Reaches (step : State → Event → State → Prop)
    (ok : State → Event → Prop) : State → State → Prop where
  | refl (s : State) : Reaches step ok s s
  | next {s t u : State} {e : Event} (first : Reaches step ok s t)
      (meets : ok t e) (last : step t e u) : Reaches step ok s u

namespace Reaches

variable {step : State → Event → State → Prop} {ok : State → Event → Prop}

theorem invariant {Inv : State → Prop}
    (hstep : ∀ s e t, Inv s → ok s e → step s e t → Inv t) {s t : State}
    (h : Reaches step ok s t) (hs : Inv s) : Inv t := by
  induction h with
  | refl => exact hs
  | next first meets last ih => exact hstep _ _ _ ih meets last

/-- The run of a list of events, if the steps are functions. -/
theorem foldl {f : State → Event → State} {events : List Event} {s : State}
    (h : ∀ pre e, pre ++ [e] <+: events → ok (pre.foldl f s) e) :
    Reaches (fun s e t => f s e = t) ok s (events.foldl f s) := by
  induction events using List.reverseRecOn with
  | nil => exact .refl s
  | append_singleton events e ih =>
      rw [List.foldl_append]
      have hrun := ih fun pre e' hpre => h pre e' (hpre.trans (List.prefix_append _ _))
      exact .next hrun (h events e List.prefix_rfl) rfl

end Reaches

/-! ## Machines -/

structure Machine (State Op Out : Type) where
  step : State → Op → Out × State

namespace Machine

variable {A B Op Out : Type}

def outputs (M : Machine A Op Out) : A → List Op → List Out
  | _, [] => []
  | a, op :: ops => (M.step a op).1 :: M.outputs (M.step a op).2 ops

def after (M : Machine A Op Out) : A → List Op → A
  | a, [] => a
  | a, op :: ops => M.after (M.step a op).2 ops

theorem after_invariant {M : Machine A Op Out} {Inv : A → Prop}
    (hstep : ∀ a op, Inv a → Inv (M.step a op).2) {a : A} {ops : List Op} (h : Inv a) :
    Inv (M.after a ops) := by
  induction ops generalizing a with
  | nil => exact h
  | cons op ops ih => exact ih (hstep a op h)

/-- Every operation meets the condition `ok` in the state in which it is made. -/
def Each (M : Machine A Op Out) (ok : A → Op → Prop) : A → List Op → Prop
  | _, [] => True
  | a, op :: ops => ok a op ∧ M.Each ok (M.step a op).2 ops

theorem each_append {M : Machine A Op Out} {ok : A → Op → Prop} {a : A} {first second : List Op} :
    M.Each ok a (first ++ second) ↔ M.Each ok a first ∧ M.Each ok (M.after a first) second := by
  induction first generalizing a with
  | nil => simp [Each, after]
  | cons op first ih => simp only [List.cons_append, Each, after, ih, and_assoc]

theorem each_of_prefix {M : Machine A Op Out} {ok : A → Op → Prop} {a : A} {pre ops : List Op}
    (h : pre <+: ops) (heach : M.Each ok a ops) : M.Each ok a pre := by
  obtain ⟨post, rfl⟩ := h
  exact (each_append.1 heach).1

/-- Every operation meets the condition `ok` in the states of both machines in
which it is made. -/
def Allowed (M : Machine A Op Out) (N : Machine B Op Out)
    (ok : A → B → Op → Prop) : A → B → List Op → Prop
  | _, _, [] => True
  | a, b, op :: ops =>
      ok a b op ∧ Allowed M N ok (M.step a op).2 (N.step b op).2 ops

theorem simulation {M : Machine A Op Out} {N : Machine B Op Out}
    {ok : A → B → Op → Prop} {Related : A → B → Prop}
    (hstep : ∀ a b op, Related a b → ok a b op →
      (M.step a op).1 = (N.step b op).1 ∧
        Related (M.step a op).2 (N.step b op).2)
    {a : A} {b : B} (h : Related a b) {ops : List Op}
    (hops : Allowed M N ok a b ops) :
    M.outputs a ops = N.outputs b ops ∧
      Related (M.after a ops) (N.after b ops) := by
  induction ops generalizing a b with
  | nil => exact ⟨rfl, h⟩
  | cons op ops ih =>
      obtain ⟨hok, hrest⟩ := hops
      obtain ⟨hout, hnext⟩ := hstep a b op h hok
      obtain ⟨houts, hafter⟩ := ih hnext hrest
      refine ⟨?_, hafter⟩
      simp only [outputs, hout, houts]

end Machine
end Vsql.Foundation
