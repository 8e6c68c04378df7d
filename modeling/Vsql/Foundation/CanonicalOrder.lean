import Mathlib.Data.List.Chain
import Mathlib.Logic.Relation
import Mathlib.Order.Basic

/-!
# Ordering within runs

Every element has a class.  Elements of class 0 stay where they are, and between two of them
the others are ordered by class with an insertion sort that is stable.  Two adjacent elements
of different classes, neither of which is 0, may be swapped without changing the result.  So
the result is the one that any exchanges of adjacent elements lead to.
-/

namespace Vsql.Foundation

variable {α : Type} (cls : α → Nat)

/-- The element goes before the elements of a larger class at the end of a list that is in
reverse. -/
def insertBack (r : α) : List α → List α
  | [] => [r]
  | p :: ps => if cls r ≠ 0 ∧ cls r < cls p then p :: insertBack r ps else r :: p :: ps

/-- The elements are inserted in turn, into a list that is in reverse. -/
def insertAll (ps x : List α) : List α := x.foldl (fun ps r => insertBack cls r ps) ps

def orderRuns (x : List α) : List α := (insertAll cls [] x).reverse

/-- No element is followed by one of a smaller class, unless that one starts a run. -/
def RunsOrdered (x : List α) : Prop := x.IsChain fun a b => cls b ≠ 0 → cls a ≤ cls b

variable {cls}

theorem insertAll_append (ps x y : List α) :
    insertAll cls ps (x ++ y) = insertAll cls (insertAll cls ps x) y := List.foldl_append

@[simp] theorem insertAll_cons (ps : List α) (r : α) (x : List α) :
    insertAll cls ps (r :: x) = insertAll cls (insertBack cls r ps) x := rfl

@[simp] theorem insertAll_nil (ps : List α) : insertAll cls ps [] = ps := rfl

/-! ## What is kept -/

theorem insertBack_perm (r : α) (ps : List α) : (insertBack cls r ps).Perm (r :: ps) := by
  induction ps with
  | nil => exact .refl _
  | cons p ps ih =>
      unfold insertBack
      split_ifs
      · exact (ih.cons p).trans (.swap r p ps)
      · exact .refl _

theorem insertAll_perm (ps x : List α) : (insertAll cls ps x).Perm (x.reverse ++ ps) := by
  induction x generalizing ps with
  | nil => exact .refl _
  | cons r x ih =>
      rw [insertAll_cons, List.reverse_cons, List.append_assoc]
      exact (ih (insertBack cls r ps)).trans ((insertBack_perm r ps).append_left x.reverse)

theorem orderRuns_perm (x : List α) : (orderRuns cls x).Perm x := by
  have h := @insertAll_perm _ cls [] x
  rw [List.append_nil] at h
  exact (List.reverse_perm _).trans (h.trans (List.reverse_perm x))

/-- An element only goes before elements of other classes. -/
theorem filter_insertBack (k : Nat) (r : α) (ps : List α) :
    (insertBack cls r ps).filter (fun a => cls a == k) =
      (r :: ps).filter (fun a => cls a == k) := by
  induction ps with
  | nil => rfl
  | cons p ps ih =>
      unfold insertBack
      split_ifs with h
      · rw [List.filter_cons, ih]
        by_cases hr : cls r = k
        · have hp : cls p ≠ k := by omega
          simp [hr, hp]
        · simp [hr, List.filter_cons]
      · rfl

theorem filter_insertAll (k : Nat) (ps x : List α) :
    (insertAll cls ps x).filter (fun a => cls a == k) =
      (x.reverse ++ ps).filter (fun a => cls a == k) := by
  induction x generalizing ps with
  | nil => rfl
  | cons r x ih =>
      rw [insertAll_cons, ih, List.reverse_cons, List.append_assoc, List.filter_append,
        List.filter_append, filter_insertBack]
      rfl

/-- The elements of one class stay in the same order. -/
theorem filter_orderRuns (k : Nat) (x : List α) :
    (orderRuns cls x).filter (fun a => cls a == k) = x.filter (fun a => cls a == k) := by
  rw [orderRuns, List.filter_reverse, filter_insertAll, List.append_nil, List.filter_reverse,
    List.reverse_reverse]

/-! ## The order -/

theorem runsOrdered_reverse {ps : List α} :
    RunsOrdered cls ps.reverse ↔ ps.IsChain fun b a => cls b ≠ 0 → cls a ≤ cls b :=
  List.isChain_reverse

theorem head?_insertBack (r : α) (ps : List α) :
    (insertBack cls r ps).head? = some r ∨ (insertBack cls r ps).head? = ps.head? := by
  cases ps with
  | nil => exact .inl rfl
  | cons p ps =>
      unfold insertBack
      split_ifs
      · exact .inr rfl
      · exact .inl rfl

theorem insertBack_ordered (r : α) {ps : List α} (h : RunsOrdered cls ps.reverse) :
    RunsOrdered cls (insertBack cls r ps).reverse := by
  rw [runsOrdered_reverse] at h ⊢
  induction ps with
  | nil => exact .singleton r
  | cons p ps ih =>
      obtain ⟨hhead, htail⟩ := List.isChain_cons.mp h
      unfold insertBack
      split_ifs with hmove
      · apply List.isChain_cons.mpr
        refine ⟨fun q hq hp => ?_, ih htail⟩
        obtain heq | heq := @head?_insertBack _ cls r ps
        · rw [heq] at hq
          cases hq
          exact hmove.2.le
        · rw [heq] at hq
          exact hhead q hq hp
      · apply List.isChain_cons_cons.mpr
        refine ⟨fun hr => ?_, h⟩
        exact not_lt.mp fun hlt => hmove ⟨hr, hlt⟩

theorem insertAll_ordered {ps : List α} (h : RunsOrdered cls ps.reverse) (x : List α) :
    RunsOrdered cls (insertAll cls ps x).reverse := by
  induction x generalizing ps with
  | nil => exact h
  | cons r x ih => exact ih (insertBack_ordered r h)

theorem runsOrdered_orderRuns (x : List α) : RunsOrdered cls (orderRuns cls x) :=
  @insertAll_ordered _ cls [] .nil x

/-- An element that is in order stays at the end. -/
theorem insertBack_of_ordered {r : α} {ps x : List α}
    (h : RunsOrdered cls (ps.reverse ++ r :: x)) : insertBack cls r ps = r :: ps := by
  cases ps with
  | nil => rfl
  | cons p ps =>
      obtain ⟨-, -, hlast⟩ := List.isChain_append.mp h
      have hle : cls r ≠ 0 → cls p ≤ cls r := hlast p (by simp) r rfl
      rw [insertBack, if_neg]
      rintro ⟨hr, hlt⟩
      exact absurd (hle hr) (not_le.mpr hlt)

/-- Runs that are in order are not changed. -/
theorem insertAll_of_ordered {ps x : List α} (h : RunsOrdered cls (ps.reverse ++ x)) :
    insertAll cls ps x = x.reverse ++ ps := by
  induction x generalizing ps with
  | nil => rfl
  | cons r x ih =>
      rw [insertAll_cons, insertBack_of_ordered h, ih (by simpa using h)]
      simp

theorem orderRuns_of_ordered {x : List α} (h : RunsOrdered cls x) : orderRuns cls x = x := by
  rw [orderRuns, @insertAll_of_ordered _ cls [] x h, List.append_nil, List.reverse_reverse]

/-! ## Swapping -/

/-- Elements of different classes may be inserted in any order. -/
theorem insertBack_comm {a b : α} (ha : cls a ≠ 0) (hb : cls b ≠ 0) (hne : cls a ≠ cls b)
    (ps : List α) :
    insertBack cls b (insertBack cls a ps) = insertBack cls a (insertBack cls b ps) := by
  induction ps with
  | nil =>
      simp only [insertBack]
      split_ifs <;> first | rfl | omega
  | cons p ps ih =>
      simp only [insertBack]
      split_ifs <;> simp only [insertBack] <;> split_ifs <;> first | rfl | omega | rw [ih]

theorem orderRuns_swap {a b : α} (ha : cls a ≠ 0) (hb : cls b ≠ 0) (hne : cls a ≠ cls b)
    (x y : List α) : orderRuns cls (x ++ a :: b :: y) = orderRuns cls (x ++ b :: a :: y) := by
  rw [orderRuns, orderRuns, insertAll_append, insertAll_append, insertAll_cons, insertAll_cons,
    insertAll_cons, insertAll_cons, insertBack_comm ha hb hne]

/-- An element may be moved before others that are all of other classes. -/
theorem orderRuns_move {r : α} {ms : List α} (hr : cls r ≠ 0)
    (hms : ∀ m ∈ ms, cls m ≠ 0 ∧ cls m ≠ cls r) (x y : List α) :
    orderRuns cls (x ++ ms ++ r :: y) = orderRuns cls (x ++ r :: ms ++ y) := by
  induction ms generalizing x with
  | nil => simp
  | cons m ms ih =>
      obtain ⟨hm, hne⟩ := hms m List.mem_cons_self
      have hrest := ih (fun m' hm' => hms m' (List.mem_cons_of_mem m hm')) (x ++ [m])
      have hswap := orderRuns_swap hm hr hne x (ms ++ y)
      simp only [List.append_assoc, List.cons_append, List.nil_append] at hrest hswap ⊢
      rw [hrest, hswap]

/-! ## Exchanges -/

/-- Two adjacent elements that are out of order are exchanged. -/
inductive Exchanges (cls : α → Nat) : List α → List α → Prop where
  | swap {a b : α} (hb : cls b ≠ 0) (hlt : cls b < cls a) (x y : List α) :
      Exchanges cls (x ++ a :: b :: y) (x ++ b :: a :: y)

/-- What is left when no elements can be exchanged any more. -/
def IsOrdering (cls : α → Nat) (x y : List α) : Prop :=
  Relation.ReflTransGen (Exchanges cls) x y ∧ ∀ z, ¬Exchanges cls y z

theorem Exchanges.cons {x y : List α} (h : Exchanges cls x y) (a : α) :
    Exchanges cls (a :: x) (a :: y) := by
  cases h with
  | swap hb hlt x y => exact .swap hb hlt (a :: x) y

theorem Exchanges.append {x y : List α} (h : Exchanges cls x y) (z : List α) :
    Exchanges cls (x ++ z) (y ++ z) := by
  cases h with
  | swap hb hlt x y => simpa using Exchanges.swap hb hlt x (y ++ z)

theorem Exchanges.orderRuns_eq {x y : List α} (h : Exchanges cls x y) :
    orderRuns cls x = orderRuns cls y := by
  cases h with
  | swap hb hlt x y => exact orderRuns_swap (by omega) hb hlt.ne' x y

/-- In a list that is in order nothing can be exchanged, and only in such a list. -/
theorem runsOrdered_iff_not_exchanges {x : List α} :
    RunsOrdered cls x ↔ ∀ y, ¬Exchanges cls x y := by
  constructor
  · intro hordered y h
    cases h with
    | swap hb hlt x y =>
        have hpair := (List.isChain_cons_cons.mp (List.isChain_append.mp hordered).2.1).1
        exact absurd (hpair hb) (not_le.mpr hlt)
  · intro hnone
    induction x with
    | nil => exact .nil
    | cons a x ih =>
        have hrest := ih fun y hy => hnone (a :: y) (hy.cons a)
        cases x with
        | nil => exact .singleton a
        | cons b x =>
            refine .cons_cons (fun hb => ?_) hrest
            exact not_lt.mp fun hlt => hnone _ (.swap hb hlt [] x)

/-- Inserting is exchanging. -/
theorem exchanges_insertBack (r : α) (ps : List α) :
    Relation.ReflTransGen (Exchanges cls) (ps.reverse ++ [r]) (insertBack cls r ps).reverse := by
  induction ps with
  | nil => exact .refl
  | cons p ps ih =>
      unfold insertBack
      split_ifs with hmove
      · have hfirst : Exchanges cls (ps.reverse ++ [p, r]) ((ps.reverse ++ [r]) ++ [p]) := by
          simpa using Exchanges.swap hmove.1 hmove.2 ps.reverse []
        have hrest := ih.lift (· ++ [p]) fun x y (h : Exchanges cls x y) => h.append [p]
        simpa using hrest.head hfirst
      · simp only [List.reverse_cons]
        exact .refl

theorem exchanges_insertAll (ps x : List α) :
    Relation.ReflTransGen (Exchanges cls) (ps.reverse ++ x) (insertAll cls ps x).reverse := by
  induction x generalizing ps with
  | nil => simpa using Relation.ReflTransGen.refl
  | cons r x ih =>
      have hfirst := (exchanges_insertBack r ps).lift (· ++ x)
        fun y z (h : Exchanges cls y z) => h.append x
      simpa using hfirst.trans (ih (insertBack cls r ps))

/-- Whatever is exchanged first, the result is the same. -/
theorem isOrdering_iff {x y : List α} : IsOrdering cls x y ↔ y = orderRuns cls x := by
  constructor
  · rintro ⟨hsteps, hnone⟩
    have hsame : orderRuns cls x = orderRuns cls y := by
      clear hnone
      induction hsteps with
      | refl => rfl
      | tail _ hstep ih => exact ih.trans hstep.orderRuns_eq
    rw [hsame, orderRuns_of_ordered (runsOrdered_iff_not_exchanges.mpr hnone)]
  · rintro rfl
    exact ⟨exchanges_insertAll [] x,
      runsOrdered_iff_not_exchanges.mp (runsOrdered_orderRuns x)⟩

end Vsql.Foundation
