import Mathlib.Data.List.Count
import Mathlib.Data.Set.Basic

/-!
# Multiplicities under an equivalence

How often an item occurs is counted up to an equivalence, which is only known to be one on
the items of a set.
-/

namespace Vsql.Foundation

variable {α : Type}

structure IsEquivalence (eqv : α → α → Bool) (K : Set α) : Prop where
  refl : ∀ a ∈ K, eqv a a = true
  symm : ∀ a ∈ K, ∀ b ∈ K, eqv a b = true → eqv b a = true
  trans : ∀ a ∈ K, ∀ b ∈ K, ∀ c ∈ K, eqv a b = true → eqv b c = true → eqv a c = true

/-- How often `a` occurs. -/
def occurrences (eqv : α → α → Bool) (a : α) (l : List α) : Nat := l.countP (eqv a)

/-- The first item of each class, after the items in `kept`. -/
def keepFirst (eqv : α → α → Bool) (kept : List α) : List α → List α
  | [] => kept
  | a :: l => keepFirst eqv (if kept.any (eqv · a) then kept else kept ++ [a]) l

/-- The items of the left side without as many items of the right side. -/
def subtract (eqv : α → α → Bool) : List α → List α → List α
  | [], _ => []
  | a :: left, right =>
      if right.any (eqv a) then subtract eqv left (right.eraseP (eqv a))
      else a :: subtract eqv left right

variable {eqv : α → α → Bool} {K : Set α}

theorem occurrences_append (a : α) (l l' : List α) :
    occurrences eqv a (l ++ l') = occurrences eqv a l + occurrences eqv a l' :=
  List.countP_append

theorem occurrences_cons (a b : α) (l : List α) :
    occurrences eqv a (b :: l) = occurrences eqv a l + if eqv a b then 1 else 0 :=
  List.countP_cons

theorem occurrences_eq_zero {a : α} {l : List α} :
    occurrences eqv a l = 0 ↔ l.any (eqv a) = false := by
  simp [occurrences, List.countP_eq_zero]

theorem occurrences_pos {a : α} {l : List α} :
    0 < occurrences eqv a l ↔ l.any (eqv a) = true := by
  simp [occurrences, List.countP_pos_iff]

theorem keepFirst_append (kept l l' : List α) :
    keepFirst eqv kept (l ++ l') = keepFirst eqv (keepFirst eqv kept l) l' := by
  induction l generalizing kept with
  | nil => rfl
  | cons a l ih => exact ih _

theorem keepFirst_filter_cons (kept : List α) (p : α → Bool) (a : α) (l : List α) :
    keepFirst eqv kept ((a :: l).filter p) =
      if kept.any (eqv · a) || !p a then keepFirst eqv kept (l.filter p)
      else keepFirst eqv (kept ++ [a]) (l.filter p) := by
  rw [List.filter_cons]
  cases p a with
  | false => simp
  | true =>
      rw [if_pos rfl, keepFirst]
      cases kept.any (eqv · a) <;> rfl

theorem mem_of_mem_keepFirst {b : α} {kept l : List α} (h : b ∈ keepFirst eqv kept l) :
    b ∈ kept ++ l := by
  induction l generalizing kept with
  | nil => simpa [keepFirst] using h
  | cons a l ih =>
      have hmem := ih h
      split_ifs at hmem with hany
      · obtain hb | hb := List.mem_append.mp hmem
        · exact List.mem_append_left _ hb
        · exact List.mem_append_right _ (List.mem_cons_of_mem a hb)
      · rwa [List.append_assoc, List.singleton_append] at hmem

theorem mem_of_mem_subtract {b : α} {left right : List α} (h : b ∈ subtract eqv left right) :
    b ∈ left := by
  induction left generalizing right with
  | nil => simp [subtract] at h
  | cons a left ih =>
      rw [subtract] at h
      split_ifs at h with hany
      · exact List.mem_cons_of_mem a (ih h)
      · obtain rfl | hb := List.mem_cons.mp h
        · exact List.mem_cons_self
        · exact List.mem_cons_of_mem a (ih hb)

namespace IsEquivalence

variable (h : IsEquivalence eqv K)

include h

theorem comm {a b : α} (ha : a ∈ K) (hb : b ∈ K) : eqv a b = eqv b a :=
  Bool.eq_iff_iff.mpr ⟨h.symm a ha b hb, h.symm b hb a ha⟩

theorem congr {a b c : α} (ha : a ∈ K) (hb : b ∈ K) (hc : c ∈ K) (hab : eqv a b = true) :
    eqv a c = eqv b c :=
  Bool.eq_iff_iff.mpr ⟨h.trans b hb a ha c hc (h.symm a ha b hb hab), h.trans a ha b hb c hc hab⟩

theorem any_comm {a : α} {l : List α} (ha : a ∈ K) (hl : ∀ b ∈ l, b ∈ K) :
    l.any (eqv · a) = l.any (eqv a) := by
  induction l with
  | nil => rfl
  | cons b l ih =>
      rw [List.any_cons, List.any_cons, h.comm (hl b (by simp)) ha,
        ih fun c hc => hl c (List.mem_cons_of_mem b hc)]

theorem occurrences_congr {a b : α} {l : List α} (ha : a ∈ K) (hb : b ∈ K)
    (hl : ∀ c ∈ l, c ∈ K) (hab : eqv a b = true) :
    occurrences eqv a l = occurrences eqv b l :=
  List.countP_congr fun c hc => by rw [h.congr ha hb (hl c hc) hab]

/-- Each class is kept once. -/
theorem occurrences_keepFirst {a : α} {kept l : List α} (ha : a ∈ K)
    (hkept : ∀ b ∈ kept, b ∈ K) (hl : ∀ b ∈ l, b ∈ K)
    (honce : occurrences eqv a kept ≤ 1) :
    occurrences eqv a (keepFirst eqv kept l) =
      if 0 < occurrences eqv a (kept ++ l) then 1 else 0 := by
  induction l generalizing kept with
  | nil =>
      rw [keepFirst, List.append_nil]
      split_ifs <;> omega
  | cons b l ih =>
      have hb : b ∈ K := hl b (by simp)
      have hl' : ∀ c ∈ l, c ∈ K := fun c hc => hl c (List.mem_cons_of_mem b hc)
      rw [keepFirst, h.any_comm hb hkept]
      by_cases hany : kept.any (eqv b) = true
      · have hkeeps : eqv a b = true → 0 < occurrences eqv a kept := by
          intro hab
          rw [h.occurrences_congr ha hb hkept hab]
          exact occurrences_pos.mpr hany
        rw [if_pos hany, ih hkept hl' honce]
        simp only [occurrences_append, occurrences_cons]
        by_cases hab : eqv a b = true
        · have hpos := hkeeps hab
          rw [if_pos (by omega), if_pos (by omega)]
        · rw [if_neg hab, Nat.add_zero]
      · have hnew : eqv a b = true → occurrences eqv a kept = 0 := by
          intro hab
          rw [h.occurrences_congr ha hb hkept hab]
          exact occurrences_eq_zero.mpr (by simpa using hany)
        have honce' : occurrences eqv a (kept ++ [b]) ≤ 1 := by
          rw [occurrences_append, occurrences_cons]
          by_cases hab : eqv a b = true
          · rw [hnew hab, if_pos hab]
            rfl
          · rw [if_neg hab]
            exact honce
        rw [if_neg hany, ih (by simpa [or_imp, forall_and, hb] using hkept) hl' honce',
          List.append_assoc, List.singleton_append]

/-- The items that are not on the right side, each class once. -/
theorem occurrences_filter {a : α} {left right : List α} (ha : a ∈ K)
    (hleft : ∀ b ∈ left, b ∈ K) (hright : ∀ b ∈ right, b ∈ K) :
    occurrences eqv a (left.filter fun b => !right.any (eqv b)) =
      if occurrences eqv a right = 0 then occurrences eqv a left else 0 := by
  have hsame : ∀ b ∈ left, eqv a b = true → right.any (eqv b) = right.any (eqv a) := by
    intro b hb hab
    rw [Bool.eq_iff_iff, ← occurrences_pos, ← occurrences_pos,
      h.occurrences_congr ha (hleft b hb) hright hab]
  rw [occurrences, List.countP_filter]
  split_ifs with hzero
  · refine List.countP_congr fun b hb => ?_
    rw [Bool.and_eq_true, and_iff_left_iff_imp]
    intro hab
    rw [hsame b hb hab, occurrences_eq_zero.mp hzero]
    rfl
  · rw [List.countP_eq_zero]
    intro b hb hboth
    rw [Bool.and_eq_true] at hboth
    rw [occurrences_eq_zero, Bool.not_eq_false] at hzero
    rw [hsame b hb hboth.1, hzero] at hboth
    exact absurd hboth.2 (by decide)

theorem occurrences_eraseP {a b : α} {right : List α} (ha : a ∈ K) (hb : b ∈ K)
    (hright : ∀ c ∈ right, c ∈ K) : occurrences eqv a (right.eraseP (eqv b)) =
      occurrences eqv a right - if eqv a b then 1 else 0 := by
  induction right with
  | nil => simp [occurrences]
  | cons c right ih =>
      have hc : c ∈ K := hright c (by simp)
      have hrest := ih fun d hd => hright d (List.mem_cons_of_mem c hd)
      by_cases hbc : eqv b c = true
      · rw [List.eraseP_cons_of_pos hbc, occurrences_cons]
        by_cases hab : eqv a b = true
        · rw [h.congr ha hb hc hab, if_pos hbc, if_pos hab, Nat.add_sub_cancel]
        · have hac : ¬eqv a c = true := fun hac =>
            hab (h.trans a ha c hc b hb hac (h.symm b hb c hc hbc))
          rw [if_neg hac, if_neg hab]
          rfl
      · rw [List.eraseP_cons_of_neg hbc, occurrences_cons, occurrences_cons, hrest]
        by_cases hab : eqv a b = true
        · rw [h.congr ha hb hc hab, if_neg hbc, if_pos hab]
          rfl
        · rw [if_neg hab]
          rfl

theorem occurrences_subtract {a : α} {left right : List α} (ha : a ∈ K)
    (hleft : ∀ b ∈ left, b ∈ K) (hright : ∀ b ∈ right, b ∈ K) :
    occurrences eqv a (subtract eqv left right) =
      occurrences eqv a left - occurrences eqv a right := by
  induction left generalizing right with
  | nil => simp [subtract, occurrences]
  | cons b left ih =>
      have hb : b ∈ K := hleft b (by simp)
      have hleft' : ∀ c ∈ left, c ∈ K := fun c hc => hleft c (List.mem_cons_of_mem b hc)
      rw [subtract]
      by_cases hany : right.any (eqv b) = true
      · rw [if_pos hany, ih hleft' fun c hc => hright c (List.mem_of_mem_eraseP hc),
          h.occurrences_eraseP ha hb hright, occurrences_cons]
        by_cases hab : eqv a b = true
        · have hpos := occurrences_pos.mpr hany
          rw [← h.occurrences_congr ha hb hright hab] at hpos
          rw [if_pos hab]
          omega
        · rw [if_neg hab]
          rfl
      · rw [if_neg hany, occurrences_cons, ih hleft' hright, occurrences_cons]
        by_cases hab : eqv a b = true
        · have hzero := occurrences_eq_zero.mpr (Bool.not_eq_true _ ▸ hany)
          rw [← h.occurrences_congr ha hb hright hab] at hzero
          rw [if_pos hab, hzero]
          rfl
        · rw [if_neg hab]
          rfl

end IsEquivalence

end Vsql.Foundation
