import Mathlib.Data.List.Perm.Basic
import Mathlib.Data.List.SplitBy
import Vsql.Foundation.MergeSort

/-!
# Groups of sorted items

Items in an order whose complement is transitive are grouped by comparing each item with the
one before it.
-/

namespace Vsql.Foundation.MergeSort

variable {α : Type}

/-- The groups have all of the items, and the items of a group are those that are the same. -/
structure IsGrouping (same : α → α → Bool) (items : List α) (groups : List (List α)) : Prop where
  perm : groups.flatten.Perm items
  nonempty : ∀ g ∈ groups, g ≠ []
  all_same : ∀ g ∈ groups, ∀ a ∈ g, ∀ b ∈ g, same a b = true
  different : groups.Pairwise fun g g' => ∀ a ∈ g, ∀ b ∈ g', same a b = false

section Grouping

variable {same : α → α → Bool} {items : List α} {groups : List (List α)}

theorem IsGrouping.of_perm {items' : List α} (h : IsGrouping same items groups)
    (hperm : items.Perm items') : IsGrouping same items' groups :=
  ⟨h.perm.trans hperm, h.nonempty, h.all_same, h.different⟩

theorem IsGrouping.eq_of_same (hsymm : ∀ a ∈ items, ∀ b ∈ items, same a b = same b a)
    (h : IsGrouping same items groups) {g g' : List α} (hg : g ∈ groups) (hg' : g' ∈ groups)
    {x y : α} (hx : x ∈ g) (hy : y ∈ g') (hxy : same x y = true) : g = g' := by
  have hmem : ∀ g ∈ groups, ∀ x ∈ g, x ∈ items := fun g hg x hx =>
    h.perm.mem_iff.mp (List.mem_flatten.mpr ⟨g, hg, hx⟩)
  let R (g g' : List α) : Prop := ∀ a ∈ g, ∀ b ∈ g', same a b = false ∧ same b a = false
  have hR : groups.Pairwise R := h.different.imp_of_mem fun hg hg' hdifferent a ha b hb =>
    have hab := hdifferent a ha b hb
    ⟨hab, by rwa [hsymm b (hmem _ hg' b hb) a (hmem _ hg a ha)]⟩
  have : Std.Symm R := ⟨fun g g' hgg' a ha b hb => (hgg' b hb a ha).symm⟩
  by_contra hne
  have hnot := (hR.forall hg hg' hne x hx y hy).1
  rw [hxy] at hnot
  cases hnot

/-- Being the same is transitive for the items. -/
theorem IsGrouping.trans (hsymm : ∀ a ∈ items, ∀ b ∈ items, same a b = same b a)
    (h : IsGrouping same items groups) {a b c : α} (ha : a ∈ items) (hb : b ∈ items)
    (hc : c ∈ items) (hab : same a b = true) (hbc : same b c = true) : same a c = true := by
  obtain ⟨g, hg, hag⟩ := List.mem_flatten.mp (h.perm.mem_iff.mpr ha)
  obtain ⟨g', hg', hbg⟩ := List.mem_flatten.mp (h.perm.mem_iff.mpr hb)
  obtain ⟨g'', hg'', hcg⟩ := List.mem_flatten.mp (h.perm.mem_iff.mpr hc)
  obtain rfl := h.eq_of_same hsymm hg hg' hag hbg hab
  obtain rfl := h.eq_of_same hsymm hg hg'' hbg hcg hbc
  exact h.all_same g hg a hag c hcg

end Grouping

/-! ## Comparing each item with the one before it -/

section Sorted

variable {less : α → α → Bool} {K : Set α} {l : List α}

/-- Neither of them is less. -/
def isSame (less : α → α → Bool) (a b : α) : Bool := !less a b && !less b a

theorem isSame_iff {a b : α} : isSame less a b = true ↔ less a b = false ∧ less b a = false := by
  simp [isSame]

/-- An item that is less than one of two is less than the other, or that one is less than it. -/
theorem NegTransitive.less_or (h : NegTransitive less K) {a b c : α} (ha : a ∈ K) (hb : b ∈ K)
    (hc : c ∈ K) (hac : less a c = true) : less a b = true ∨ less b c = true := by
  by_contra hnot
  simp only [not_or, Bool.not_eq_true] at hnot
  rw [h c hc b hb a ha hnot.2 hnot.1] at hac
  cases hac

theorem isChain_and {R S : α → α → Prop} {l : List α} (h : l.IsChain R) (h' : l.Pairwise S) :
    l.IsChain fun a b => R a b ∧ S a b := by
  rw [List.isChain_iff_getElem] at h ⊢
  exact fun i hi => ⟨h i hi, List.pairwise_iff_getElem.mp h' i (i + 1) (by omega) hi (by omega)⟩

theorem all_isSame {g : List α} (hasymm : Asymmetric less K) (htrans : NegTransitive less K)
    (hg : ∀ a ∈ g, a ∈ K) (hchain : g.IsChain fun a b => isSame less a b = true) :
    ∀ a ∈ g, ∀ b ∈ g, isSame less a b = true := by
  let R (a b : α) : Prop := (a ∈ K ∧ b ∈ K) ∧ isSame less a b = true
  have : Std.Symm R := ⟨fun a b hab => ⟨hab.1.symm, isSame_iff.mpr (isSame_iff.mp hab.2).symm⟩⟩
  have : IsTrans α R := ⟨fun a b c hab hbc => by
    obtain ⟨⟨ha, hb⟩, hab⟩ := hab
    obtain ⟨⟨-, hc⟩, hbc⟩ := hbc
    rw [isSame_iff] at hab hbc
    exact ⟨⟨ha, hc⟩, isSame_iff.mpr ⟨htrans c hc b hb a ha hbc.1 hab.1,
      htrans a ha b hb c hc hab.2 hbc.2⟩⟩⟩
  have hR : g.IsChain R := hchain.imp_of_mem_imp fun a b ha hb hab => ⟨⟨hg a ha, hg b hb⟩, hab⟩
  have hirrefl : ∀ a ∈ g, R a a := fun a ha =>
    ⟨⟨hg a ha, hg a ha⟩, isSame_iff.mpr ⟨hasymm.irrefl (hg a ha), hasymm.irrefl (hg a ha)⟩⟩
  exact fun a ha b hb => (hR.pairwise.forall_of_forall hirrefl ha hb).2

/-- The items of a group are less than those of the next one. -/
theorem less_of_getLast_head {g g' : List α} (hasymm : Asymmetric less K)
    (htrans : NegTransitive less K) (hg : ∀ a ∈ g, a ∈ K) (hg' : ∀ a ∈ g', a ∈ K)
    (hsorted : (g ++ g').Pairwise fun a b => less b a = false) (hne : g ≠ []) (hne' : g' ≠ [])
    (hlast : isSame less (g.getLast hne) (g'.head hne') = false) :
    ∀ a ∈ g, ∀ b ∈ g', less a b = true := by
  obtain ⟨hsorted, hsorted', hacross⟩ := List.pairwise_append.mp hsorted
  intro a ha b hb
  have hlastK := hg _ (List.getLast_mem hne)
  have hheadK := hg' _ (List.head_mem hne')
  have hbefore : less (g.getLast hne) a = false := by
    rw [← List.dropLast_append_getLast hne] at ha hsorted
    obtain ha | ha := List.mem_append.mp ha
    · exact (List.pairwise_append.mp hsorted).2.2 a ha _ (List.mem_singleton_self _)
    · rw [List.mem_singleton.mp ha]
      exact hasymm.irrefl hlastK
  have hafter : less b (g'.head hne') = false := by
    rw [← List.cons_head_tail hne'] at hb hsorted'
    obtain rfl | hb := List.mem_cons.mp hb
    · exact hasymm.irrefl hheadK
    · exact (List.pairwise_cons.mp hsorted').1 b hb
  have hless : less (g.getLast hne) (g'.head hne') = true := by
    have hnot := hacross _ (List.getLast_mem hne) _ (List.head_mem hne')
    simpa [isSame, hnot] using hlast
  have hlastb := (htrans.less_or hlastK (hg' b hb) hheadK hless).resolve_right (by simp [hafter])
  exact (htrans.less_or hlastK (hg a ha) (hg' b hb) hlastb).resolve_left (by simp [hbefore])

/-- Sorted items are grouped by comparing each item with the one before it. -/
theorem isGrouping_splitBy {same : α → α → Bool} (hasymm : Asymmetric less K)
    (htrans : NegTransitive less K) (hsame : ∀ a ∈ K, ∀ b ∈ K, same a b = isSame less a b)
    (hl : ∀ a ∈ l, a ∈ K) (hsorted : l.Pairwise fun a b => less b a = false) :
    IsGrouping same l (l.splitBy same) := by
  have hflatten := List.flatten_splitBy same l
  have hmem : ∀ g ∈ l.splitBy same, ∀ x ∈ g, x ∈ K := fun g hg x hx =>
    hl x (hflatten ▸ List.mem_flatten.mpr ⟨g, hg, hx⟩)
  have hne : ∀ g ∈ l.splitBy same, g ≠ [] := fun g hg => List.ne_nil_of_mem_splitBy hg
  rw [← hflatten] at hsorted
  obtain ⟨hin, hacross⟩ := List.pairwise_flatten.mp hsorted
  refine ⟨.of_eq hflatten, hne, fun g hg a ha b hb => ?_, ?_⟩
  · rw [hsame a (hmem g hg a ha) b (hmem g hg b hb)]
    refine all_isSame hasymm htrans (hmem g hg) ?_ a ha b hb
    refine (List.isChain_of_mem_splitBy hg).imp_of_mem_imp fun a b ha hb hab => ?_
    rwa [← hsame a (hmem g hg a ha) b (hmem g hg b hb)]
  let R (g g' : List α) : Prop :=
    ((∀ a ∈ g, a ∈ K) ∧ (∀ b ∈ g', b ∈ K) ∧ g' ≠ []) ∧ ∀ a ∈ g, ∀ b ∈ g', less a b = true
  have : IsTrans (List α) R := ⟨fun g g' g'' hgg' hgg'' => by
    obtain ⟨⟨hg, hg', hne⟩, hless⟩ := hgg'
    obtain ⟨⟨-, hg'', hne'⟩, hless'⟩ := hgg''
    refine ⟨⟨hg, hg'', hne'⟩, fun a ha c hc => ?_⟩
    obtain ⟨b, hb⟩ := List.exists_mem_of_ne_nil g' hne
    have hcb := hasymm b (hg' b hb) c (hg'' c hc) (hless' b hb c hc)
    exact (htrans.less_or (hg a ha) (hg'' c hc) (hg' b hb) (hless a ha b hb)).resolve_right
      (by simp [hcb])⟩
  have hchain := isChain_and (List.isChain_getLast_head_splitBy same l) hacross
  have hR : (l.splitBy same).IsChain R := by
    refine hchain.imp_of_mem_imp fun g g' hg hg' ⟨⟨hne, hne', hlast⟩, hacross⟩ => ?_
    rw [hsame _ (hmem g hg _ (List.getLast_mem hne)) _
      (hmem g' hg' _ (List.head_mem hne'))] at hlast
    have hsorted := List.pairwise_append.mpr ⟨hin g hg, hin g' hg', hacross⟩
    exact ⟨⟨hmem g hg, hmem g' hg', hne'⟩,
      less_of_getLast_head hasymm htrans (hmem g hg) (hmem g' hg') hsorted hne hne' hlast⟩
  refine hR.pairwise.imp fun {g g'} hR a ha b hb => ?_
  rw [hsame a (hR.1.1 a ha) b (hR.1.2.1 b hb), isSame, hR.2 a ha b hb]
  rfl

end Sorted

/-! ## Items at sorted positions -/

section Positions

variable {κ : Type} {less : κ → κ → Bool} {key : α → κ} {K : Set κ} {items result : List α}
variable {positions : List Nat}

theorem map_getElem?_eq (h : List.Forall₂ (fun p x => items[p]? = some x) positions result) :
    positions.map (items[·]?) = result.map some := by
  rw [← List.forall₂_eq_eq_eq, List.forall₂_map_left_iff, List.forall₂_map_right_iff]
  exact h

theorem perm_of_positions (hperm : positions.Perm (List.range items.length))
    (h : List.Forall₂ (fun p x => items[p]? = some x) positions result) :
    result.Perm items := by
  have hitems : (List.range items.length).map (items[·]?) = items.map some :=
    List.ext_getElem (by simp) fun i hi hi' => by simp
  rw [← List.map_perm_map_iff (Option.some_injective α), ← map_getElem?_eq h, ← hitems]
  exact hperm.map _

/-- The items at sorted positions are sorted. -/
theorem pairwise_of_ordered (htrans : NegTransitive less K) (hK : ∀ a ∈ result, key a ∈ K)
    (hordered : positions.IsChain fun p q => lessAt less (items.map key) q p = false)
    (h : List.Forall₂ (fun p x => items[p]? = some x) positions result) :
    result.Pairwise fun a b => less (key b) (key a) = false := by
  let R (a b : α) : Prop := (key a ∈ K ∧ key b ∈ K) ∧ less (key b) (key a) = false
  have : IsTrans α R := ⟨fun a b c hab hbc =>
    ⟨⟨hab.1.1, hbc.1.2⟩, htrans _ hab.1.1 _ hab.1.2 _ hbc.1.2 hab.2 hbc.2⟩⟩
  let S (x y : Option α) : Prop := ∀ a ∈ x, ∀ b ∈ y, less (key b) (key a) = false
  have hS : (positions.map (items[·]?)).IsChain S := by
    rw [List.isChain_map]
    refine hordered.imp fun p q hpq a ha b hb => ?_
    simpa [lessAt, Option.mem_def.mp ha, Option.mem_def.mp hb] using hpq
  rw [map_getElem?_eq h, List.isChain_map] at hS
  have hR : result.IsChain R := hS.imp_of_mem_imp fun a b ha hb hab =>
    ⟨⟨hK a ha, hK b hb⟩, hab a rfl b rfl⟩
  exact hR.pairwise.imp fun hab => hab.2

end Positions

end Vsql.Foundation.MergeSort
