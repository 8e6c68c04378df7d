import Mathlib.Data.List.Chain
import Mathlib.Data.List.Sort
import Mathlib.Data.Set.Basic

/-!
# Bottom-up merge sort

A pass merges each run with the one after it, and the runs become twice as long.  An item of
the second run is only taken when it is less, so the sort is stable.  It sorts every list if
and only if not being less is transitive.
-/

namespace Vsql.Foundation.MergeSort

variable {α κ : Type}

def mergeRuns (less : α → α → Bool) (left right : List α) : List α :=
  left.merge right fun a b => !less b a

def mergePass (less : α → α → Bool) (width : Nat) (l : List α) : List α :=
  if width = 0 ∨ l.length ≤ width then l
  else
    mergeRuns less (l.take width) ((l.drop width).take width) ++
      mergePass less width (l.drop (2 * width))
termination_by l.length
decreasing_by
  rw [List.length_drop]
  omega

theorem mergeRuns_perm (less : α → α → Bool) (left right : List α) :
    (mergeRuns less left right).Perm (left ++ right) :=
  List.merge_perm_append _

theorem mergePass_perm (less : α → α → Bool) (width : Nat) (l : List α) :
    (mergePass less width l).Perm l := by
  induction l using mergePass.induct width with
  | case1 l h => rw [mergePass, if_pos h]
  | case2 l h ih =>
      rw [mergePass, if_neg h]
      refine ((mergeRuns_perm _ _ _).append ih).trans ?_
      have hdrop : l.drop (2 * width) = (l.drop width).drop width := by
        rw [List.drop_drop, Nat.two_mul]
      rw [hdrop, List.append_assoc, List.take_append_drop, List.take_append_drop]

/-- The passes from runs of `width` items on. -/
def mergePasses (less : α → α → Bool) (width : Nat) (l : List α) : List α :=
  if 0 < width ∧ width < l.length then mergePasses less (2 * width) (mergePass less width l)
  else l
termination_by l.length - width
decreasing_by
  rw [(mergePass_perm less width l).length_eq]
  omega

theorem mergePasses_perm (less : α → α → Bool) (width : Nat) (l : List α) :
    (mergePasses less width l).Perm l := by
  induction width, l using mergePasses.induct less with
  | case1 width l h ih =>
      rw [mergePasses, if_pos h]
      exact ih.trans (mergePass_perm less width l)
  | case2 width l h => rw [mergePasses, if_neg h]

/-! ## Sorted runs -/

/-- Runs that are sorted by `R`, each of which is before the next ones by `S`. -/
inductive SortedRuns (R S : α → α → Prop) (width : Nat) : List α → Prop where
  | last {run : List α} (hlength : run.length ≤ width) (hrun : run.Pairwise R) :
      SortedRuns R S width run
  | cons {run rest : List α} (hlength : run.length = width) (hrun : run.Pairwise R)
      (hbefore : ∀ a ∈ run, ∀ b ∈ rest, S a b) (hrest : SortedRuns R S width rest) :
      SortedRuns R S width (run ++ rest)

variable {R S : α → α → Prop} {less : α → α → Bool}

theorem sortedRuns_one {l : List α} (h : l.Pairwise S) : SortedRuns R S 1 l := by
  induction l with
  | nil => exact .last (by simp) .nil
  | cons a l ih =>
      obtain ⟨ha, hl⟩ := List.pairwise_cons.mp h
      exact @SortedRuns.cons _ R S 1 [a] l rfl (List.pairwise_singleton R a) (by simpa using ha)
        (ih hl)

theorem SortedRuns.pairwise {width : Nat} {l : List α} (h : SortedRuns R S width l)
    (hlength : l.length ≤ width) : l.Pairwise R := by
  cases h with
  | last _ hrun => exact hrun
  | @cons run rest hwidth hrun =>
      have hnil : rest = [] := by
        rw [← List.length_eq_zero_iff]
        rw [List.length_append] at hlength
        omega
      rwa [hnil, List.append_nil]

section Merging

variable (htrans : ∀ a b c, R a b → R b c → R a c)
variable (hless : ∀ a b, S a b → if less b a then R b a else R a b)

include htrans hless

theorem mergeRuns_pairwise {left right : List α} (hleft : left.Pairwise R)
    (hright : right.Pairwise R) (hbefore : ∀ a ∈ left, ∀ b ∈ right, S a b) :
    (mergeRuns less left right).Pairwise R := by
  unfold mergeRuns
  induction left, right using List.merge.induct (fun a b => !less b a) with
  | case1 right => simpa using hright
  | case2 left => simpa using hleft
  | case3 a left b right htake ih =>
      have hab := hless a b (hbefore a (by simp) b (by simp))
      rw [List.cons_merge_cons_pos (fun a b => !less b a) left right htake]
      rw [if_neg (by simpa using htake)] at hab
      obtain ⟨ha, hrest⟩ := List.pairwise_cons.mp hleft
      refine List.pairwise_cons.mpr ⟨fun c hc => ?_, ih hrest hright fun x hx y hy =>
        hbefore x (List.mem_cons_of_mem a hx) y hy⟩
      obtain hc | hc := List.mem_merge.mp hc
      · exact ha c hc
      · obtain rfl | hc := List.mem_cons.mp hc
        · exact hab
        · exact htrans a b c hab (List.rel_of_pairwise_cons hright hc)
  | case4 a left b right htake ih =>
      have hba := hless a b (hbefore a (by simp) b (by simp))
      rw [List.cons_merge_cons_neg (fun a b => !less b a) left right htake]
      rw [if_pos (by simpa using htake)] at hba
      obtain ⟨hb, hrest⟩ := List.pairwise_cons.mp hright
      refine List.pairwise_cons.mpr ⟨fun c hc => ?_, ih hleft hrest fun x hx y hy =>
        hbefore x hx y (List.mem_cons_of_mem b hy)⟩
      obtain hc | hc := List.mem_merge.mp hc
      · obtain rfl | hc := List.mem_cons.mp hc
        · exact hba
        · exact htrans b a c hba (List.rel_of_pairwise_cons hleft hc)
      · exact hb c hc

theorem mergePass_sortedRuns {width : Nat} (hwidth : 0 < width) {l : List α}
    (h : SortedRuns R S width l) : SortedRuns R S (2 * width) (mergePass less width l) := by
  induction l using mergePass.induct width with
  | case1 l hshort =>
      rw [mergePass, if_pos hshort]
      have hlength : l.length ≤ width := by omega
      exact .last (by omega) (h.pairwise hlength)
  | case2 l hlong ih =>
      rw [mergePass, if_neg hlong]
      cases h with
      | last hlength => omega
      | @cons left rest hlength hleft hbefore hrest =>
          have hdrop : (left ++ rest).drop (2 * width) = rest.drop width := by
            rw [Nat.two_mul, ← List.drop_drop, List.drop_left' hlength]
          rw [List.take_left' hlength, List.drop_left' hlength, hdrop]
          rw [hdrop] at ih
          cases hrest with
          | last hshort hright =>
              rw [List.take_of_length_le hshort, List.drop_of_length_le hshort, mergePass,
                if_pos (by simp), List.append_nil]
              refine .last ?_ (mergeRuns_pairwise htrans hless hleft hright hbefore)
              rw [(mergeRuns_perm _ _ _).length_eq, List.length_append]
              omega
          | @cons right rest' hlength' hright hbefore' hrest' =>
              rw [List.drop_left' hlength'] at ih
              rw [List.take_left' hlength', List.drop_left' hlength']
              have hsorted := mergeRuns_pairwise htrans hless hleft hright
                fun a ha b hb => hbefore a ha b (List.mem_append_left _ hb)
              refine .cons ?_ hsorted (fun a ha b hb => ?_) (ih hrest')
              · rw [(mergeRuns_perm _ _ _).length_eq, List.length_append]
                omega
              · rw [(mergePass_perm _ _ _).mem_iff] at hb
                rw [(mergeRuns_perm _ _ _).mem_iff, List.mem_append] at ha
                obtain ha | ha := ha
                · exact hbefore a ha b (List.mem_append_right _ hb)
                · exact hbefore' a ha b hb

theorem mergePasses_pairwise {width : Nat} (hwidth : 0 < width) {l : List α}
    (h : SortedRuns R S width l) : (mergePasses less width l).Pairwise R := by
  induction width, l using mergePasses.induct less with
  | case1 width l _ ih =>
      rw [mergePasses, if_pos ‹_›]
      exact ih (by omega) (mergePass_sortedRuns htrans hless hwidth h)
  | case2 width l hstop =>
      rw [mergePasses, if_neg hstop]
      exact h.pairwise (by omega)

end Merging

/-! ## Positions -/

/-- Positions compare as the keys at them. -/
def lessAt (less : κ → κ → Bool) (keys : List κ) (p q : Nat) : Bool :=
  match keys[p]?, keys[q]? with
  | some a, some b => less a b
  | _, _ => false

/-- The positions of sorted keys.  Equal keys keep their order. -/
structure IsStableSort (less : κ → κ → Bool) (keys : List κ) (positions : List Nat) : Prop where
  perm : positions.Perm (List.range keys.length)
  ordered : positions.IsChain fun p q => lessAt less keys q p = false
  stable : positions.Pairwise fun p q =>
    lessAt less keys p q = false → lessAt less keys q p = false → p < q

def sortedPositions (less : κ → κ → Bool) (keys : List κ) : List Nat :=
  mergePasses (lessAt less keys) 1 (List.range keys.length)

def Asymmetric (less : κ → κ → Bool) (K : Set κ) : Prop :=
  ∀ a ∈ K, ∀ b ∈ K, less a b = true → less b a = false

/-- Not being less is transitive. -/
def NegTransitive (less : κ → κ → Bool) (K : Set κ) : Prop :=
  ∀ a ∈ K, ∀ b ∈ K, ∀ c ∈ K, less b a = false → less c b = false → less c a = false

section Keys

variable {lt : κ → κ → Bool} {keys : List κ} {K : Set κ}

theorem lessAt_of_lt {p q : Nat} (hp : p < keys.length) (hq : q < keys.length) :
    lessAt lt keys p q = lt keys[p] keys[q] := by
  rw [lessAt, List.getElem?_eq_getElem hp, List.getElem?_eq_getElem hq]

theorem Asymmetric.irrefl (h : Asymmetric lt K) {a : κ} (ha : a ∈ K) : lt a a = false := by
  cases hless : lt a a with
  | false => rfl
  | true => exact (h a ha a ha hless).symm.trans hless |>.symm

/-- The order of two positions: that of their keys, or their own for equal keys. -/
def Before (lt : κ → κ → Bool) (keys : List κ) (p q : Nat) : Prop :=
  p < keys.length ∧ q < keys.length ∧ lessAt lt keys q p = false ∧
    (lessAt lt keys p q = false → p < q)

theorem before_trans (htrans : NegTransitive lt K) (hkeys : ∀ key ∈ keys, key ∈ K)
    (p q r : Nat) (hpq : Before lt keys p q) (hqr : Before lt keys q r) :
    Before lt keys p r := by
  obtain ⟨hp, hq, hle, hstable⟩ := hpq
  obtain ⟨-, hr, hle', hstable'⟩ := hqr
  have hmem : ∀ {i : Nat} (hi : i < keys.length), keys[i] ∈ K := fun hi =>
    hkeys _ (List.getElem_mem hi)
  rw [lessAt_of_lt hq hp] at hle
  rw [lessAt_of_lt hr hq] at hle'
  rw [lessAt_of_lt hp hq] at hstable
  rw [lessAt_of_lt hq hr] at hstable'
  refine ⟨hp, hr, ?_, fun hequal => ?_⟩
  · rw [lessAt_of_lt hr hp]
    exact htrans _ (hmem hp) _ (hmem hq) _ (hmem hr) hle hle'
  · rw [lessAt_of_lt hp hr] at hequal
    have hqp := htrans _ (hmem hq) _ (hmem hr) _ (hmem hp) hle' hequal
    have hrq := htrans _ (hmem hr) _ (hmem hp) _ (hmem hq) hequal hle
    exact (hstable hqp).trans (hstable' hrq)

theorem isStableSort_sortedPositions (hasymm : Asymmetric lt K) (htrans : NegTransitive lt K)
    (hkeys : ∀ key ∈ keys, key ∈ K) : IsStableSort lt keys (sortedPositions lt keys) := by
  have hless : ∀ p q, p < q ∧ q < keys.length →
      if lessAt lt keys q p then Before lt keys q p else Before lt keys p q := by
    rintro p q ⟨hpq, hq⟩
    have hp := hpq.trans hq
    split_ifs with h
    · refine ⟨hq, hp, ?_, fun hnot => absurd (hnot.symm.trans h) (by decide)⟩
      rw [lessAt_of_lt hq hp] at h
      rw [lessAt_of_lt hp hq]
      exact hasymm _ (hkeys _ (List.getElem_mem hq)) _ (hkeys _ (List.getElem_mem hp)) h
    · exact ⟨hp, hq, by simpa using h, fun _ => hpq⟩
  have hrange : (List.range keys.length).Pairwise fun p q => p < q ∧ q < keys.length :=
    List.pairwise_lt_range.imp_of_mem fun _ hq hpq => ⟨hpq, List.mem_range.mp hq⟩
  have hsorted := mergePasses_pairwise (before_trans htrans hkeys) hless one_pos
    (sortedRuns_one hrange)
  refine ⟨mergePasses_perm _ _ _, ?_, hsorted.imp fun hbefore hequal _ => hbefore.2.2.2 hequal⟩
  exact (hsorted.imp fun hbefore => hbefore.2.2.1).isChain

/-! ### Keys that are not in order -/

theorem sortedPositions_last {a b c : κ} (hba : lt b a = false) (hca : lt c a = true) :
    sortedPositions lt [a, b, c] = [2, 0, 1] := by
  have hrange : List.range [a, b, c].length = [0, 1, 2] := rfl
  rw [sortedPositions, hrange]
  simp [mergePasses, mergePass, mergeRuns, lessAt, hba, hca]

theorem sortedPositions_reversed {a b c : κ} (hba : lt b a = true) (hcb : lt c b = true) :
    sortedPositions lt [a, b, c] = [2, 1, 0] := by
  have hrange : List.range [a, b, c].length = [0, 1, 2] := rfl
  rw [sortedPositions, hrange]
  simp [mergePasses, mergePass, mergeRuns, lessAt, hba, hcb]

/-- `a` is less than `b`, which is less than `c`, which is less than `a`. -/
theorem sortedPositions_cycle {a b c : κ} (hab : lt a b = true) (hbc : lt b c = true)
    (hac : lt a c = false) (hbb : lt b b = false) :
    sortedPositions lt [c, a, b, b, a] = [4, 2, 3, 0, 1] := by
  have hrange : List.range [c, a, b, b, a].length = [0, 1, 2, 3, 4] := rfl
  rw [sortedPositions, hrange]
  simp [mergePasses, mergePass, mergeRuns, lessAt, hab, hbc, hac, hbb]

def Equal (less : κ → κ → Bool) (a b : κ) : Prop := less a b = false ∧ less b a = false

theorem exists_of_not_negTransitive (h : ¬NegTransitive lt K) :
    ∃ a ∈ K, ∃ b ∈ K, ∃ c ∈ K,
      (Equal lt a b ∧ Equal lt b c ∧ lt c a = true) ∨
      (Equal lt a c ∧ lt b a = true ∧ lt c b = true) ∨
      (lt a b = true ∧ lt b c = true ∧ lt c a = true) := by
  unfold NegTransitive at h
  push Not at h
  obtain ⟨a, ha, b, hb, c, hc, hba, hcb, hca⟩ := h
  have hca : lt c a = true := by simpa using hca
  cases hab : lt a b with
  | false =>
      cases hbc : lt b c with
      | false => exact ⟨a, ha, b, hb, c, hc, .inl ⟨⟨hab, hba⟩, ⟨hbc, hcb⟩, hca⟩⟩
      | true => exact ⟨a, ha, c, hc, b, hb, .inr (.inl ⟨⟨hab, hba⟩, hca, hbc⟩)⟩
  | true =>
      cases hbc : lt b c with
      | false => exact ⟨b, hb, a, ha, c, hc, .inr (.inl ⟨⟨hbc, hcb⟩, hab, hca⟩)⟩
      | true => exact ⟨a, ha, b, hb, c, hc, .inr (.inr ⟨hab, hbc, hca⟩)⟩

/-- Every list is sorted if and only if not being less is transitive. -/
theorem isStableSort_iff (hasymm : Asymmetric lt K) :
    (∀ keys : List κ, (∀ key ∈ keys, key ∈ K) →
      IsStableSort lt keys (sortedPositions lt keys)) ↔ NegTransitive lt K := by
  refine ⟨fun hsorts => ?_, fun htrans keys => isStableSort_sortedPositions hasymm htrans⟩
  by_contra hnot
  obtain ⟨a, ha, b, hb, c, hc, h | h | h⟩ := exists_of_not_negTransitive hnot
  · obtain ⟨⟨-, hba⟩, ⟨hbc, hcb⟩, hca⟩ := h
    have hstable := (hsorts [a, b, c] (by simp [ha, hb, hc])).stable
    rw [sortedPositions_last hba hca] at hstable
    simp [lessAt, hbc, hcb] at hstable
  · obtain ⟨⟨hac, hca⟩, hba, hcb⟩ := h
    have hstable := (hsorts [a, b, c] (by simp [ha, hb, hc])).stable
    rw [sortedPositions_reversed hba hcb] at hstable
    simp [lessAt, hac, hca] at hstable
  · obtain ⟨hab, hbc, hca⟩ := h
    have hstable := (hsorts [c, a, b, b, a] (by simp [ha, hb, hc])).stable
    rw [sortedPositions_cycle hab hbc (hasymm c hc a ha hca) (hasymm.irrefl hb)] at hstable
    simp [lessAt, hasymm.irrefl ha] at hstable

end Keys

end Vsql.Foundation.MergeSort
