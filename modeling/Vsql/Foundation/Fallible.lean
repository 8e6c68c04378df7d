import Mathlib.Data.List.Forall2

/-!
# Loops whose steps can fail

If a loop succeeds each of its steps did, so what every step preserves the loop preserves.
-/

namespace Vsql

theorem ok_of_bind {ε α β : Type} {x : Except ε α} {f : α → Except ε β} {b : β}
    (h : (x >>= f) = .ok b) : ∃ a, x = .ok a ∧ f a = .ok b := by
  cases x with
  | error e => cases h
  | ok a => exact ⟨a, rfl, h⟩

namespace Foundation

theorem foldlM_invariant {ε α β : Type} {P : β → Prop} {f : β → α → Except ε β} {l : List α}
    {b b' : β} (h : l.foldlM f b = .ok b') (hb : P b)
    (hf : ∀ b a b', a ∈ l → P b → f b a = .ok b' → P b') : P b' := by
  induction l generalizing b with
  | nil =>
      cases h
      exact hb
  | cons a l ih =>
      rw [List.foldlM_cons] at h
      obtain ⟨b₁, hb₁, h⟩ := ok_of_bind h
      refine ih h (hf b a b₁ (by simp) hb hb₁) ?_
      intro b a b' ha
      exact hf b a b' (List.mem_cons_of_mem _ ha)

theorem forall₂_of_mapM {ε α β : Type} {f : α → Except ε β} {l : List α} {l' : List β}
    (h : l.mapM f = .ok l') : List.Forall₂ (fun a b => f a = .ok b) l l' := by
  induction l generalizing l' with
  | nil =>
      cases h
      exact .nil
  | cons a l ih =>
      rw [List.mapM_cons] at h
      obtain ⟨b, hb, h⟩ := ok_of_bind h
      obtain ⟨l'', hl'', h⟩ := ok_of_bind h
      cases h
      exact .cons hb (ih hl'')

theorem mapM_of_forall₂ {ε α β : Type} {f : α → Except ε β} {l : List α} {l' : List β}
    (h : List.Forall₂ (fun a b => f a = .ok b) l l') : l.mapM f = .ok l' := by
  induction h with
  | nil => rfl
  | cons hab _ ih =>
      rw [List.mapM_cons, hab, ih]
      rfl

theorem forall₂_imp_of_mem {α β : Type} {R S : α → β → Prop} {l : List α} {l' : List β}
    (h : List.Forall₂ R l l') (himp : ∀ a ∈ l, ∀ b, R a b → S a b) : List.Forall₂ S l l' := by
  induction h with
  | nil => exact .nil
  | cons hab _ ih =>
      exact .cons (himp _ (by simp) _ hab) (ih fun a ha => himp a (List.mem_cons_of_mem _ ha))

theorem map_eq_map_of_forall₂ {α β γ : Type} {R : α → β → Prop} {f : α → γ} {g : β → γ}
    {l : List α} {l' : List β} (h : List.Forall₂ R l l') (heq : ∀ a b, R a b → g b = f a) :
    l'.map g = l.map f := by
  induction h with
  | nil => rfl
  | cons hab _ ih => rw [List.map_cons, List.map_cons, heq _ _ hab, ih]

theorem exists_of_forall₂ {α β : Type} {R : α → β → Prop} {l : List α} {l' : List β}
    (h : List.Forall₂ R l l') : ∀ b ∈ l', ∃ a ∈ l, R a b := by
  induction h with
  | nil => simp
  | cons hab _ ih =>
      intro b hb
      obtain rfl | hb := List.mem_cons.mp hb
      · exact ⟨_, by simp, hab⟩
      · obtain ⟨a, ha, hr⟩ := ih b hb
        exact ⟨a, List.mem_cons_of_mem _ ha, hr⟩

end Foundation
end Vsql
