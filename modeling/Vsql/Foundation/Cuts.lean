import Mathlib.Data.List.Basic

/-!
# Cutting blocks out of a list

Each element of a list is kept or cut out.  Whole blocks are cut out, each one at a place
where a block can start, which the element before it decides.  Two ways to cut a list that keep
the same elements are the same one, when the blocks are separate enough.
-/

namespace Vsql.Foundation

variable {α : Type}

/-- The last element of a list, or what is before it. -/
def lastOf (prev : Option α) (as : List α) : Option α := as.foldl (fun _ a => some a) prev

theorem lastOf_append (prev : Option α) (as bs : List α) :
    lastOf prev (as ++ bs) = lastOf (lastOf prev as) bs := List.foldl_append

theorem lastOf_eq_getLast? {as : List α} (h : as ≠ []) (prev : Option α) :
    lastOf prev as = as.getLast? := by
  obtain ⟨as, a, rfl⟩ := (List.eq_nil_or_concat' as).resolve_left h
  rw [lastOf_append, List.getLast?_concat]
  rfl

/-- The elements that are not cut out. -/
def kept : List Bool → List α → List α
  | true :: cuts, _ :: as => kept cuts as
  | false :: cuts, a :: as => a :: kept cuts as
  | _, _ => []

theorem kept_replicate_false (as bs : List α) (cuts : List Bool) :
    kept (List.replicate as.length false ++ cuts) (as ++ bs) = as ++ kept cuts bs := by
  induction as with
  | nil => rfl
  | cons a as ih => exact congrArg (a :: ·) ih

theorem kept_replicate_true (as bs : List α) (cuts : List Bool) :
    kept (List.replicate as.length true ++ cuts) (as ++ bs) = kept cuts bs := by
  induction as with
  | nil => rfl
  | cons a as ih => exact ih

variable {starts : Option α → Prop} {blocks : List (List α)}

/-- Blocks are cut out of a list after `prev`.  What is `left` of a block is cut out first. -/
inductive Cut (starts : Option α → Prop) (blocks : List (List α)) :
    (prev : Option α) → (left : List α) → List α → List Bool → Prop where
  | nil {prev : Option α} : Cut starts blocks prev [] [] []
  | keep {prev : Option α} {a : α} {as : List α} {cuts : List Bool}
      (rest : Cut starts blocks (some a) [] as cuts) :
      Cut starts blocks prev [] (a :: as) (false :: cuts)
  | start {prev : Option α} {a : α} {left as : List α} {cuts : List Bool} (hstarts : starts prev)
      (hblock : a :: left ∈ blocks) (rest : Cut starts blocks (some a) left as cuts) :
      Cut starts blocks prev [] (a :: as) (true :: cuts)
  | more {prev : Option α} {a : α} {left as : List α} {cuts : List Bool}
      (rest : Cut starts blocks (some a) left as cuts) :
      Cut starts blocks prev (a :: left) (a :: as) (true :: cuts)

/-- No block can start right after another one, or inside of another one so that both have the
same end. -/
structure Separate (starts : Option α → Prop) (blocks : List (List α)) : Prop where
  ends : ∀ block ∈ blocks, ¬starts block.getLast?
  inside : ∀ block ∈ blocks, ∀ block' ∈ blocks, ∀ a, a :: block' <:+ block → ¬starts (some a)

namespace Cut

theorem append_kept {prev : Option α} {as bs : List α} {cuts : List Bool}
    (h : Cut starts blocks (lastOf prev as) [] bs cuts) :
    Cut starts blocks prev [] (as ++ bs) (List.replicate as.length false ++ cuts) := by
  induction as generalizing prev with
  | nil => exact h
  | cons a as ih => exact .keep (ih h)

theorem append_left {prev : Option α} {left bs : List α} {cuts : List Bool}
    (h : Cut starts blocks (lastOf prev left) [] bs cuts) :
    Cut starts blocks prev left (left ++ bs) (List.replicate left.length true ++ cuts) := by
  induction left generalizing prev with
  | nil => exact h
  | cons a left ih => exact .more (ih h)

theorem append_block {prev : Option α} {block bs : List α} {cuts : List Bool}
    (hstarts : starts prev) (hblock : block ∈ blocks)
    (h : Cut starts blocks (lastOf prev block) [] bs cuts) :
    Cut starts blocks prev [] (block ++ bs) (List.replicate block.length true ++ cuts) := by
  cases block with
  | nil => exact h
  | cons a left => exact .start hstarts hblock (append_left h)

/-- The cuts say what is left of a block. -/
theorem left_unique {prev : Option α} {left left' as : List α} {cuts : List Bool}
    (h : Cut starts blocks prev left as cuts) (h' : Cut starts blocks prev left' as cuts)
    (hends : ¬starts (lastOf prev left)) (hends' : ¬starts (lastOf prev left')) : left = left' := by
  induction h generalizing left' with
  | nil =>
      cases h'
      rfl
  | keep rest ih =>
      cases h'
      rfl
  | start hstarts => exact absurd hstarts hends
  | more rest ih =>
      cases h' with
      | start hstarts => exact absurd hstarts hends'
      | more rest' => rw [ih rest' hends hends']

end Cut

/-! ## What was kept last -/

/-- While a block is cut out, the element that was kept last is one that a block can start
after. -/
inductive KeptLast (starts : Option α → Prop) (blocks : List (List α)) (prev last : Option α) :
    (left : List α) → Prop where
  | outside (h : last = prev ∨ ¬starts prev) : KeptLast starts blocks prev last []
  | inside {a : α} {left block : List α} (hstarts : starts last) (hblock : block ∈ blocks)
      (hsuffix : a :: left <:+ block) : KeptLast starts blocks prev last (a :: left)

theorem Separate.not_starts_of_suffix (h : Separate starts blocks) {block left : List α}
    (hblock : block ∈ blocks) (hne : left ≠ []) (hsuffix : left <:+ block) (prev : Option α) :
    ¬starts (lastOf prev left) := by
  obtain ⟨front, rfl⟩ := hsuffix
  rw [lastOf_eq_getLast? hne, ← List.getLast?_append_of_ne_nil front hne]
  exact h.ends _ hblock

theorem KeptLast.next (h : Separate starts blocks) {last : Option α} {a : α} {left block : List α}
    (hstarts : starts last) (hblock : block ∈ blocks) (hsuffix : a :: left <:+ block) :
    KeptLast starts blocks (some a) last left := by
  cases left with
  | nil => exact .outside (.inr (h.not_starts_of_suffix hblock (by simp) hsuffix none))
  | cons b left => exact .inside hstarts hblock ((List.suffix_cons a _).trans hsuffix)

/-- What one step can do. -/
theorem Cut.step {prev last : Option α} {left as : List α} {a : α} {cut : Bool} {cuts : List Bool}
    (h : Cut starts blocks prev left (a :: as) (cut :: cuts))
    (hlast : KeptLast starts blocks prev last left) :
    (cut = false ∧ Cut starts blocks (some a) [] as cuts) ∨
      (cut = true ∧ starts last ∧ ∃ left', Cut starts blocks (some a) left' as cuts ∧
        ∃ block ∈ blocks, a :: left' <:+ block) := by
  cases h with
  | keep rest => exact .inl ⟨rfl, rest⟩
  | start hstarts hblock rest =>
      cases hlast with
      | outside hprev =>
          obtain rfl | hprev := hprev
          · exact .inr ⟨rfl, hstarts, _, rest, _, hblock, List.suffix_refl _⟩
          · exact absurd hstarts hprev
  | more rest =>
      cases hlast with
      | inside hstarts hblock hsuffix =>
          exact .inr ⟨rfl, hstarts, _, rest, _, hblock, hsuffix⟩

/-- An element that is cut out and could be kept with the same cuts after it is not one that a
block can start after. -/
theorem Cut.not_starts (hseparate : Separate starts blocks) {a : α} {left as block : List α}
    {cuts : List Bool} (h : Cut starts blocks (some a) left as cuts)
    (h' : Cut starts blocks (some a) [] as cuts) (hblock : block ∈ blocks)
    (hsuffix : a :: left <:+ block) : ¬starts (some a) := by
  cases h with
  | nil => exact hseparate.not_starts_of_suffix hblock (by simp) hsuffix none
  | keep => exact hseparate.not_starts_of_suffix hblock (by simp) hsuffix none
  | start => exact hseparate.not_starts_of_suffix hblock (by simp) hsuffix none
  | @more _ b left as cuts rest =>
      cases h' with
      | @start _ _ left' _ _ hstarts hblock' rest' =>
          have hends := hseparate.not_starts_of_suffix hblock (by simp) hsuffix none
          have hends' := hseparate.not_starts_of_suffix hblock' (by simp) (List.suffix_refl _) none
          have hleft : left = left' := rest.left_unique rest' hends hends'
          rw [← hleft] at hblock'
          exact hseparate.inside _ hblock _ hblock' a hsuffix

/-- After the last place where the cuts differ, what was kept last is not the same. -/
theorem Cut.diverge (hseparate : Separate starts blocks) {prev last last' : Option α}
    {left left' as : List α} {cuts cuts' : List Bool} (h : Cut starts blocks prev left as cuts)
    (h' : Cut starts blocks prev left' as cuts') (hlast : KeptLast starts blocks prev last left)
    (hlast' : KeptLast starts blocks prev last' left') :
    cuts = cuts' ∨ ∃ front front' rest, kept cuts as = front ++ rest ∧
      kept cuts' as = front' ++ rest ∧ lastOf last front ≠ lastOf last' front' := by
  induction as generalizing prev last last' left left' cuts cuts' with
  | nil =>
      cases h
      cases h'
      exact .inl rfl
  | cons a as ih =>
      obtain ⟨cut, cuts, rfl⟩ : ∃ cut tail, cuts = cut :: tail := by cases h <;> exact ⟨_, _, rfl⟩
      obtain ⟨cut', cuts', rfl⟩ : ∃ cut tail, cuts' = cut :: tail := by
        cases h' <;> exact ⟨_, _, rfl⟩
      have hkeep : KeptLast starts blocks (some a) (some a) [] := .outside (.inl rfl)
      obtain ⟨rfl, hrest⟩ | ⟨rfl, hstarts, _, hrest, block, hblock, hsuffix⟩ := h.step hlast
      · obtain ⟨rfl, hrest'⟩ | ⟨rfl, hstarts', _, hrest', block', hblock', hsuffix'⟩ :=
          h'.step hlast'
        · obtain rfl | ⟨front, front', rest, hfront, hfront', hne⟩ := ih hrest hrest' hkeep hkeep
          · exact .inl rfl
          · exact .inr ⟨a :: front, a :: front', rest, congrArg (a :: ·) hfront,
              congrArg (a :: ·) hfront', hne⟩
        · have hcut := KeptLast.next hseparate hstarts' hblock' hsuffix'
          obtain rfl | ⟨front, front', rest, hfront, hfront', hne⟩ := ih hrest hrest' hkeep hcut
          · refine .inr ⟨[a], [], kept cuts as, rfl, rfl, ?_⟩
            intro hsame
            have hlast : some a = last' := hsame
            rw [← hlast] at hstarts'
            exact hrest'.not_starts hseparate hrest hblock' hsuffix' hstarts'
          · exact .inr ⟨a :: front, front', rest, congrArg (a :: ·) hfront, hfront', hne⟩
      · have hcut := KeptLast.next hseparate hstarts hblock hsuffix
        obtain ⟨rfl, hrest'⟩ | ⟨rfl, hstarts', _, hrest', block', hblock', hsuffix'⟩ :=
          h'.step hlast'
        · obtain rfl | ⟨front, front', rest, hfront, hfront', hne⟩ := ih hrest hrest' hcut hkeep
          · refine .inr ⟨[], [a], kept cuts as, rfl, rfl, ?_⟩
            intro hsame
            have hlast : last = some a := hsame
            rw [hlast] at hstarts
            exact hrest.not_starts hseparate hrest' hblock hsuffix hstarts
          · exact .inr ⟨front, a :: front', rest, hfront, congrArg (a :: ·) hfront', hne⟩
        · have hcut' := KeptLast.next hseparate hstarts' hblock' hsuffix'
          obtain rfl | ⟨front, front', rest, hfront, hfront', hne⟩ := ih hrest hrest' hcut hcut'
          · exact .inl rfl
          · exact .inr ⟨front, front', rest, hfront, hfront', hne⟩

/-- What is kept of a list says what was cut out of it. -/
theorem Cut.eq_of_kept_eq (hseparate : Separate starts blocks) {prev : Option α} {as : List α}
    {cuts cuts' : List Bool} (h : Cut starts blocks prev [] as cuts)
    (h' : Cut starts blocks prev [] as cuts') (hkept : kept cuts as = kept cuts' as) :
    cuts = cuts' := by
  obtain hsame | ⟨front, front', rest, hfront, hfront', hne⟩ :=
    h.diverge hseparate h' (.outside (.inl rfl)) (.outside (.inl rfl))
  · exact hsame
  · rw [hfront, hfront'] at hkept
    exact absurd (congrArg (lastOf prev) (List.append_cancel_right hkept)) hne

end Vsql.Foundation
