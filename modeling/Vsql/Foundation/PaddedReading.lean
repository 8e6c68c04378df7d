import Mathlib.Computability.Language
import Mathlib.Data.List.DropRight
import Vsql.Foundation.ForwardSteps

/-!
# Reading along a padded word

A word is followed by as many pads as are wanted, and a word that is read along it moves
from one position to another.  The last position stands for the end with any number of pads
after it.  A language moves to every position that one of its words moves to.
-/

namespace Vsql.Foundation.Padded

variable {α : Type} [DecidableEq α] (pad : α) (s : List α)

/-! ## Words -/

def readChar (i : Nat) (c : α) : Option Nat :=
  match s[i]? with
  | some d => if d = c then some (i + 1) else none
  | none => if c = pad then some i else none

def readFrom : Nat → List α → Option Nat
  | i, [] => some i
  | i, c :: w => (readChar pad s i c).bind (readFrom · w)

theorem readFrom_append (i : Nat) (v w : List α) :
    readFrom pad s i (v ++ w) = (readFrom pad s i v).bind (readFrom pad s · w) := by
  induction v generalizing i with
  | nil => rfl
  | cons c v ih =>
      simp only [List.cons_append, readFrom]
      cases readChar pad s i c with
      | none => rfl
      | some j => exact ih j

variable {pad s}

theorem readChar_bounds {i j : Nat} {c : α} (hi : i ≤ s.length)
    (h : readChar pad s i c = some j) : i ≤ j ∧ j ≤ s.length := by
  unfold readChar at h
  split at h
  · next d hd =>
      have hlt := (List.getElem?_eq_some_iff.mp hd).1
      split at h
      · cases h
        omega
      · cases h
  · split at h
    · cases h
      exact ⟨le_rfl, hi⟩
    · cases h

theorem readFrom_bounds {i j : Nat} {w : List α} (hi : i ≤ s.length)
    (h : readFrom pad s i w = some j) : i ≤ j ∧ j ≤ s.length := by
  induction w generalizing i with
  | nil =>
      cases h
      exact ⟨le_rfl, hi⟩
  | cons c w ih =>
      obtain ⟨m, hm, h⟩ := Option.bind_eq_some_iff.mp h
      have hfirst := readChar_bounds hi hm
      have hrest := ih hfirst.2 h
      exact ⟨hfirst.1.trans hrest.1, hrest.2⟩

/-- The words that read to the end are the rest of the word, with pads. -/
theorem readFrom_eq_length {i : Nat} {w : List α} (hi : i ≤ s.length) :
    readFrom pad s i w = some s.length ↔ ∃ k, w = s.drop i ++ List.replicate k pad := by
  induction w generalizing i with
  | nil =>
      simp only [readFrom, Option.some.injEq]
      constructor
      · rintro rfl
        exact ⟨0, by simp⟩
      · rintro ⟨k, hk⟩
        have hnil := (List.append_eq_nil_iff.mp hk.symm).1
        rw [List.drop_eq_nil_iff] at hnil
        omega
  | cons c w ih =>
      obtain rfl | hlt := hi.eq_or_lt
      · have hnone : s[s.length]? = none := by simp
        simp only [readFrom, readChar, hnone, List.drop_length, List.nil_append]
        by_cases hc : c = pad
        · subst hc
          rw [if_pos rfl, Option.bind_some, ih le_rfl]
          simp only [List.drop_length, List.nil_append]
          constructor
          · rintro ⟨k, rfl⟩
            exact ⟨k + 1, rfl⟩
          · rintro ⟨k, hk⟩
            cases k with
            | zero => cases hk
            | succ k => exact ⟨k, (List.cons.inj hk).2⟩
        · rw [if_neg hc]
          simp only [Option.bind_none, reduceCtorEq, false_iff, not_exists]
          rintro (_ | k) hk
          · cases hk
          · exact hc (List.cons.inj hk).1
      · have hsome : s[i]? = some s[i] := List.getElem?_eq_getElem hlt
        have hdrop : s.drop i = s[i] :: s.drop (i + 1) := List.drop_eq_getElem_cons hlt
        simp only [readFrom, readChar, hsome, hdrop, List.cons_append]
        by_cases hc : s[i] = c
        · rw [if_pos hc, Option.bind_some, ih hlt]
          simp [hc]
        · rw [if_neg hc]
          simp [Ne.symm hc]

/-! ## Words that are equal but for their pads -/

theorem rdropWhile_append_replicate (w : List α) (k : Nat) :
    (w ++ List.replicate k pad).rdropWhile (· = pad) = w.rdropWhile (· = pad) := by
  induction k with
  | zero => simp
  | succ k ih =>
      rw [List.replicate_succ', ← List.append_assoc, List.rdropWhile_concat_pos _ _ _ (by simp), ih]

theorem exists_append_replicate (w : List α) :
    ∃ k, w = w.rdropWhile (· = pad) ++ List.replicate k pad := by
  induction w using List.reverseRecOn with
  | nil => exact ⟨0, rfl⟩
  | append_singleton w c ih =>
      by_cases hc : c = pad
      · obtain ⟨k, hk⟩ := ih
        refine ⟨k + 1, ?_⟩
        rw [List.rdropWhile_concat_pos _ _ _ (by simpa using hc), List.replicate_succ', hc,
          ← List.append_assoc, ← hk]
      · refine ⟨0, ?_⟩
        rw [List.rdropWhile_concat_neg _ _ _ (by simpa using hc)]
        simp

theorem rdropWhile_eq_iff {v w : List α} :
    w.rdropWhile (· = pad) = v.rdropWhile (· = pad) ↔
      ∃ k, w = v.rdropWhile (· = pad) ++ List.replicate k pad := by
  constructor
  · intro h
    rw [← h]
    exact exists_append_replicate w
  · rintro ⟨k, rfl⟩
    rw [rdropWhile_append_replicate]
    exact List.rdropWhile_idempotent _ _

/-! ## Languages -/

variable (pad s)

/-- A word of the language leads from one position to the other. -/
def Leads (L : Language α) (i j : Nat) : Prop :=
  i ≤ s.length ∧ ∃ w ∈ L, readFrom pad s i w = some j

/-- What the language reaches from a set of positions. -/
def reach (L : Language α) (S : Set Nat) : Set Nat := image (Leads pad s L) S

variable {pad s}

theorem Leads.bounds {L : Language α} {i j : Nat} (h : Leads pad s L i j) :
    i ≤ j ∧ j ≤ s.length := by
  obtain ⟨hi, w, -, hw⟩ := h
  exact readFrom_bounds hi hw

theorem mem_reach {L : Language α} {S : Set Nat} {j : Nat} :
    j ∈ reach pad s L S ↔ ∃ i ∈ S, Leads pad s L i j := Iff.rfl

theorem reach_one {S : Set Nat} (hS : ∀ i ∈ S, i ≤ s.length) : reach pad s 1 S = S := by
  ext j
  rw [mem_reach]
  constructor
  · rintro ⟨i, hi, -, w, hw, hread⟩
    rw [Language.mem_one] at hw
    subst hw
    cases hread
    exact hi
  · intro hj
    exact ⟨j, hj, hS j hj, [], Language.nil_mem_one, rfl⟩

theorem reach_mul (L M : Language α) (S : Set Nat) :
    reach pad s (L * M) S = reach pad s M (reach pad s L S) := by
  ext j
  constructor
  · rintro ⟨i, hi, hle, w, hw, hread⟩
    obtain ⟨u, hu, v, hv, rfl⟩ := Language.mem_mul.mp hw
    rw [readFrom_append] at hread
    obtain ⟨m, hm, hread⟩ := Option.bind_eq_some_iff.mp hread
    exact ⟨m, ⟨i, hi, hle, u, hu, hm⟩, (readFrom_bounds hle hm).2, v, hv, hread⟩
  · rintro ⟨m, ⟨i, hi, hle, u, hu, hm⟩, -, v, hv, hread⟩
    refine ⟨i, hi, hle, u ++ v, Language.mem_mul.mpr ⟨u, hu, v, hv, rfl⟩, ?_⟩
    rw [readFrom_append, hm]
    exact hread

theorem reach_add (L M : Language α) (S : Set Nat) :
    reach pad s (L + M) S = reach pad s L S ∪ reach pad s M S := by
  ext j
  simp only [Set.mem_union, mem_reach, Leads, Language.mem_add]
  constructor
  · rintro ⟨i, hi, hle, w, hw | hw, hread⟩
    · exact .inl ⟨i, hi, hle, w, hw, hread⟩
    · exact .inr ⟨i, hi, hle, w, hw, hread⟩
  · rintro (⟨i, hi, hle, w, hw, hread⟩ | ⟨i, hi, hle, w, hw, hread⟩)
    · exact ⟨i, hi, hle, w, .inl hw, hread⟩
    · exact ⟨i, hi, hle, w, .inr hw, hread⟩

theorem reach_pow (L : Language α) {S : Set Nat} (hS : ∀ i ∈ S, i ≤ s.length) (k : Nat) :
    reach pad s (L ^ k) S = (reach pad s L)^[k] S := by
  induction k with
  | zero => exact reach_one hS
  | succ k ih => rw [pow_succ, reach_mul, ih, Function.iterate_succ_apply']

/-- The powers of the language that reach somewhere. -/
theorem mem_reach_powers {L : Language α} {S : Set Nat} {p : Nat → Prop} {j : Nat} :
    j ∈ reach pad s {w | ∃ k, p k ∧ w ∈ L ^ k} S ↔ ∃ k, p k ∧ j ∈ reach pad s (L ^ k) S := by
  simp only [mem_reach, Leads]
  constructor
  · rintro ⟨i, hi, hle, w, ⟨k, hk, hw⟩, hread⟩
    exact ⟨k, hk, i, hi, hle, w, hw, hread⟩
  · rintro ⟨k, hk, i, hi, hle, w, hw, hread⟩
    exact ⟨i, hi, hle, w, ⟨k, hk, hw⟩, hread⟩

theorem reach_iterate_succ (L : Language α) {k : Nat} (hk : s.length < k) (S : Set Nat) :
    (reach pad s L)^[k + 1] S = (reach pad s L)^[k] S :=
  image_iterate_succ (fun _ _ h => h.bounds) hk S

theorem reach_empty (L : Language α) : reach pad s L ∅ = ∅ := by
  ext j
  simp [mem_reach]

/-- Reading a whole word of the language, up to pads at its end. -/
theorem mem_reach_length {L : Language α} :
    s.length ∈ reach pad s L {0} ↔ ∃ w ∈ L, ∃ k, w = s ++ List.replicate k pad := by
  simp only [mem_reach, Set.mem_singleton_iff, exists_eq_left, Leads, Nat.zero_le, true_and,
    readFrom_eq_length (Nat.zero_le _), List.drop_zero]

end Vsql.Foundation.Padded
