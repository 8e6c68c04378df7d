import Mathlib.Order.BooleanAlgebra.Set
import Vsql.Foundation.ForestSearch

/-!
# Splitting a node of a forest into several

The parts after the first one become free nodes with consecutive numbers.  Each of
them can be linked after the part before it, in any node above, because it is its
sibling: it has the upper part of the span.
-/

namespace Vsql.Foundation

variable {κ : Type} [LinearOrder κ]

/-- Nodes with consecutive numbers. -/
def placeFrom (nodes : NodeMap κ) (m : Nat) : List (Node κ) → NodeMap κ
  | [] => nodes
  | node :: rest => placeFrom (Function.update nodes m (some node)) (m + 1) rest

omit [LinearOrder κ] in
theorem placeFrom_of_lt (nodes : NodeMap κ) {m j : Nat} (rest : List (Node κ)) (h : j < m) :
    placeFrom nodes m rest j = nodes j := by
  induction rest generalizing nodes m with
  | nil => rfl
  | cons node rest ih =>
      rw [placeFrom, ih _ (by omega), Function.update_of_ne (by omega)]

/-- The parts of a node, and the key that each part but the first one starts with. -/
inductive SplitsInto : Node κ → Node κ → List (κ × Node κ) → Prop where
  | one (whole : Node κ) : SplitsInto whole whole []
  | cons {k : κ} {whole first right node : Node κ} {rest : List (κ × Node κ)}
      (h : Forest.Splits k whole first right) (hrest : SplitsInto right node rest) :
      SplitsInto whole first ((k, node) :: rest)

/-- `m` can be linked after `n`. -/
structure Sibling (nodes : NodeMap κ) (s : Shape κ) (n m : Nat) (k : κ) : Prop where
  level : s.level m = s.level n
  mem : k ∈ s.span n
  within : ∀ node, nodes n = some node → node.Within s {y | y < k}
  span : ∀ y ∈ s.span m, k ≤ y ∧ y ∈ s.span n

def Siblings (nodes : NodeMap κ) (s : Shape κ) (n m : Nat) : List κ → Prop
  | [] => True
  | k :: ks => Sibling nodes s n m k ∧ Siblings nodes s m (m + 1) ks

omit [LinearOrder κ] in
theorem Node.Within.mono {s s' : Shape κ} {keep : Set κ} {node : Node κ}
    (h : node.Within s keep) (hspan : ∀ c ∈ node.targets, s'.span c ⊆ s.span c) :
    node.Within s' keep := by
  cases node with
  | leaf keys => exact h
  | inner entries =>
      exact fun e he => ⟨(h e he).1, (hspan e.2 (List.mem_map_of_mem he)).trans (h e he).2⟩

omit [LinearOrder κ] in
theorem Node.Within.subset {s : Shape κ} {keep keep' : Set κ} {node : Node κ}
    (h : node.Within s keep) (hsub : keep ⊆ keep') : node.Within s keep' := by
  cases node with
  | leaf keys => exact fun k hk => hsub (h k hk)
  | inner entries => exact fun e he => ⟨hsub (h e he).1, (h e he).2.trans hsub⟩

/-- The first node keeps the part of its span that the next one has, and what is below it may
only become less. -/
theorem Sibling.mono {nodes nodes' : NodeMap κ} {s s' : Shape κ} {n m : Nat} {k : κ}
    (h : Sibling nodes s n m k) (hnode : nodes' n = nodes n) (hn : s'.level n = s.level n)
    (hm : s'.level m = s.level m) (hspan : ∀ y ∈ s.span n, k ≤ y → y ∈ s'.span n)
    (hspan' : s'.span m ⊆ s.span m)
    (hbelow : ∀ node, nodes n = some node → ∀ c ∈ node.targets, s'.span c ⊆ s.span c) :
    Sibling nodes' s' n m k where
  level := by rw [hm, hn, h.level]
  mem := hspan k h.mem (le_refl k)
  within := by
    intro node hnode'
    rw [hnode] at hnode'
    exact (h.within node hnode').mono (hbelow node hnode')
  span := by
    intro y hy
    obtain ⟨hle, hmem⟩ := h.span y (hspan' hy)
    exact ⟨hle, hspan y hmem hle⟩

theorem Siblings.mono {nodes nodes' : NodeMap κ} {s s' : Shape κ} {n m : Nat} {ks : List κ}
    (h : Siblings nodes s n m ks)
    (hkeep : ∀ j, j = n ∨ m ≤ j ∧ j < m + ks.length →
      nodes' j = nodes j ∧ s'.level j = s.level j)
    (hspan : ∀ j, m ≤ j ∧ j < m + ks.length → s'.span j = s.span j)
    (hfirst : ∀ k ∈ ks.head?, ∀ y ∈ s.span n, k ≤ y → y ∈ s'.span n)
    (hbelow : ∀ j, j = n ∨ m ≤ j ∧ j < m + ks.length → ∀ node, nodes j = some node →
      ∀ c ∈ node.targets, s'.span c ⊆ s.span c) :
    Siblings nodes' s' n m ks := by
  induction ks generalizing n m with
  | nil => trivial
  | cons k ks ih =>
      rw [List.length_cons] at hkeep hspan hbelow
      obtain ⟨hsibling, hrest⟩ := h
      obtain ⟨hnode, hlevel⟩ := hkeep n (.inl rfl)
      obtain ⟨-, hlevel'⟩ := hkeep m (.inr (by omega))
      have hspan' := hspan m (by omega)
      refine ⟨hsibling.mono hnode hlevel hlevel' (hfirst k rfl) hspan'.subset
        (hbelow n (.inl rfl)), ih hrest (fun j hj => hkeep j (.inr (by omega)))
        (fun j hj => hspan j (by omega)) (fun _ _ y hy _ => ?_)
        fun j hj => hbelow j (.inr (by omega))⟩
      rwa [hspan']

theorem Siblings.level {nodes : NodeMap κ} {s : Shape κ} {n m : Nat} {ks : List κ}
    (h : Siblings nodes s n m ks) {j : Nat} (hj : m ≤ j ∧ j < m + ks.length) :
    s.level j = s.level n := by
  induction ks generalizing n m with
  | nil => simp at hj; omega
  | cons k ks ih =>
      rw [List.length_cons] at hj
      obtain ⟨hfirst, hrest⟩ := h
      by_cases hjm : j = m
      · rw [hjm, hfirst.level]
      · rw [ih hrest (by omega), hfirst.level]

namespace Forest

variable {nodes : NodeMap κ} {root : Nat} {pending : Option κ} {free : Set Nat} {s : Shape κ}
variable {k : κ} {n m : Nat}

theorem splits_mem {whole left right : Node κ} (h : Forest nodes root pending free s)
    (hn : nodes n = some whole) (hsplit : Splits k whole left right) : k ∈ s.span n := by
  have hok := h.ok n whole hn
  cases hsplit with
  | leaf _ hhead _ =>
      exact hok.2.2 k (List.mem_append_right _ (List.mem_of_mem_head? hhead))
  | @inner a b _ hhead =>
      obtain ⟨e, he, rfl⟩ := Option.map_eq_some_iff.mp hhead
      exact (hok.2.1 e (List.mem_append_right _ (List.mem_of_mem_head? he))).key_mem

theorem splits_within {whole left right : Node κ} (h : Forest nodes root pending free s)
    (hn : nodes n = some whole) (hsplit : Splits k whole left right) :
    left.Within s {y | y < k} := by
  have hok := h.ok n whole hn
  cases hsplit with
  | leaf _ _ hlt => exact hlt
  | @inner a b _ hhead =>
      obtain ⟨e, he, rfl⟩ := Option.map_eq_some_iff.mp hhead
      obtain ⟨-, -, hpairs, -⟩ := hok
      rw [List.pairwise_append] at hpairs
      intro e' he'
      have hsep := hpairs.2.2 e' he' e (List.mem_of_mem_head? he)
      exact ⟨hsep.key_lt, hsep.below⟩

theorem Splits.left_targets {whole left right : Node κ} (h : Splits k whole left right) :
    ∀ c ∈ left.targets, c ∈ whole.targets := by
  cases h with
  | leaf => exact fun c hc => hc
  | inner =>
      intro c hc
      simp only [Node.targets, List.map_append, List.mem_append] at hc ⊢
      exact .inl hc

/-- A node is split into several, the first one of which keeps its number. -/
theorem splitAll {whole first : Node κ} {rest : List (κ × Node κ)}
    (h : Forest nodes root pending free s) (hn : nodes n = some whole)
    (hfresh : ∀ j, m ≤ j → nodes j = none) (hsplit : SplitsInto whole first rest) :
    ∃ s', Forest (placeFrom (Function.update nodes n (some first)) m (rest.map Prod.snd)) root
        pending (free ∪ {j | m ≤ j ∧ j < m + rest.length}) s' ∧
      Siblings (placeFrom (Function.update nodes n (some first)) m (rest.map Prod.snd)) s' n m
        (rest.map Prod.fst) ∧
      ∀ j < m, s'.level j = s.level j ∧ s'.span j = s.span j ∧
        s'.separator j = s.separator j := by
  induction hsplit generalizing nodes n m free s with
  | one whole =>
      refine ⟨s, ?_, trivial, fun _ _ => ⟨rfl, rfl, rfl⟩⟩
      have hempty : {j | m ≤ j ∧ j < m + ([] : List (κ × Node κ)).length} = (∅ : Set Nat) := by
        ext j
        simp
      rw [hempty, Set.union_empty]
      rw [List.map_nil, placeFrom, Function.update_eq_self_iff.mpr hn.symm]
      exact h
  | @cons k whole first right node rest hfirst hrest ih =>
      have hnm : n < m := by
        by_contra hge
        rw [hfresh n (by omega)] at hn
        cases hn
      have hsplitted := h.split hn (hfresh m (le_refl m)) hfirst
      obtain ⟨s', hforest, hsiblings, hframe⟩ := ih (m := m + 1) hsplitted
        (Function.update_self ..) (by
          intro j hj
          rw [Function.update_of_ne (by omega), Function.update_of_ne (by omega)]
          exact hfresh j (by omega))
      have hnodes : Function.update (Function.update (Function.update nodes n (some first)) m
          (some right)) m (some node) =
            Function.update (Function.update nodes n (some first)) m (some node) :=
        Function.update_idem ..
      rw [hnodes] at hforest hsiblings
      have hfree : insert m free ∪ {j | m + 1 ≤ j ∧ j < m + 1 + rest.length} =
          free ∪ {j | m ≤ j ∧ j < m + ((k, node) :: rest).length} := by
        ext j
        simp only [Set.mem_union, Set.mem_insert_iff, Set.mem_ofPred_eq, List.length_cons]
        constructor
        · rintro ((rfl | hj) | hj)
          · exact .inr (by omega)
          · exact .inl hj
          · exact .inr (by omega)
        · rintro (hj | hj)
          · exact .inl (.inr hj)
          · by_cases hjm : j = m
            · exact .inl (.inl hjm)
            · exact .inr (by omega)
      rw [hfree] at hforest
      have hkept : ∀ j < m, s'.level j = s.level j ∧ s'.span j = s.span j ∧
          s'.separator j = s.separator j := by
        intro j hj
        obtain ⟨hlevel, hspan, hseparator⟩ := hframe j (by omega)
        have hne : j ≠ m := by omega
        have hsame := @splitShape_of_ne _ _ s n m k right j hne
        exact ⟨hlevel.trans hsame.1, hspan.trans hsame.2, hseparator⟩
      obtain ⟨hlevel, hspan, -⟩ := hframe m (by omega)
      simp only [splitShape, if_true] at hlevel hspan
      have hplaced : placeFrom (Function.update nodes n (some first)) m
          (((k, node) :: rest).map Prod.snd) n = some first := by
        rw [placeFrom_of_lt _ _ hnm, Function.update_self]
      refine ⟨s', hforest, ⟨⟨?_, ?_, ?_, ?_⟩, hsiblings⟩, hkept⟩
      · rw [hlevel, (hkept n hnm).1]
      · rw [(hkept n hnm).2.1]
        exact h.splits_mem hn hfirst
      · intro node' hnode'
        rw [hplaced] at hnode'
        cases hnode'
        refine (h.splits_within hn hfirst).mono fun c hc => ?_
        obtain ⟨entries, key, hp, he⟩ := target_of_mem hn (hfirst.left_targets c hc)
        have hsome := h.closed n entries _ hp he
        have hcm : c < m := by
          by_contra hge
          simp [hfresh c (by omega)] at hsome
        rw [(hkept c hcm).2.1]
      · intro y hy
        rw [hspan] at hy
        rw [(hkept n hnm).2.1]
        exact ⟨hy.2, hy.1⟩

/-! ## Linking the parts -/

theorem linkShape_of_ne {q j : Nat} (hj : j ≠ n) :
    (linkShape s q n m k).span j = s.span j := by
  simp [linkShape, hj]

theorem linkShape_subset {q j : Nat} : (linkShape s q n m k).span j ⊆ s.span j := by
  intro y hy
  by_cases hj : j = n
  · subst hj
    simp only [linkShape, if_true] at hy
    exact hy.1
  · rwa [linkShape_of_ne hj] at hy

theorem rekeyShape_of_ne {j : Nat} (hj : j ≠ n) :
    (rekeyShape s n k).span j = s.span j := by
  simp [rekeyShape, hj]

theorem rekeyShape_subset {j : Nat} : (rekeyShape s n k).span j ⊆ s.span j := by
  intro y hy
  by_cases hj : j = n
  · subst hj
    simp only [rekeyShape, if_true] at hy
    exact hy.1
  · rwa [rekeyShape_of_ne hj] at hy

/-- All the parts are linked to one node. -/
theorem linkAll {q : Nat} {before after : List (κ × Nat)} {old : κ} {node : Node κ} {ks : List κ}
    (h : Forest nodes root pending free s)
    (hq : nodes q = some (.inner (before ++ (old, n) :: after))) (hn : nodes n = some node)
    (hnm : n < m) (hfree : ∀ j, m ≤ j → j < m + ks.length → j ∈ free)
    (hsiblings : Siblings nodes s n m ks) (hsorted : (old :: ks).Pairwise (· < ·)) :
    ∃ s', Forest (Function.update nodes q (some (.inner (before ++ (old, n) ::
        ks.zip (List.range' m ks.length) ++ after)))) root pending
      (free \ {j | m ≤ j ∧ j < m + ks.length}) s' ∧
      (∀ j, s'.level j = s.level j) ∧
      ∀ j, s.level j < s.level n → s'.span j = s.span j ∧ s'.separator j = s.separator j := by
  induction ks generalizing nodes n m before old node free s with
  | nil =>
      refine ⟨s, ?_, fun _ => rfl, fun _ _ => ⟨rfl, rfl⟩⟩
      have hempty : {j | m ≤ j ∧ j < m + ([] : List κ).length} = (∅ : Set Nat) := by
        ext j
        simp
      rw [hempty, Set.sdiff_empty]
      have hlist : before ++ (old, n) :: ([] : List κ).zip (List.range' m ([] : List κ).length) ++
          after = before ++ (old, n) :: after := by simp
      rw [hlist, Function.update_eq_self_iff.mpr hq.symm]
      exact h
  | cons k ks ih =>
      obtain ⟨hsibling, hrest⟩ := hsiblings
      have hm : m ∈ free := hfree m (le_refl m) (by simp)
      rw [List.pairwise_cons] at hsorted
      have hlinked := h.link hq hn hm hsibling.level (hsorted.1 k (by simp)) hsibling.mem
        (hsibling.within node hn) hsibling.span
      have hlevelq : s.level n + 1 = s.level q := (h.entry hq (e := (old, n)) (by simp)).level
      have hmq : ∀ j, j = m ∨ m + 1 ≤ j ∧ j < m + 1 + ks.length → j ≠ q := by
        rintro j hj rfl
        have hall : Siblings nodes s n m (k :: ks) := ⟨hsibling, hrest⟩
        have hlevel := hall.level (j := j) (by rw [List.length_cons]; omega)
        omega
      obtain ⟨node', hnode'⟩ := Option.isSome_iff_exists.mp (h.free_some m hm)
      have hlist : before ++ (old, n) :: (k, m) :: after =
          (before ++ [(old, n)]) ++ (k, m) :: after := by simp
      rw [hlist] at hlinked
      have hsiblings' : Siblings (Function.update nodes q
          (some (.inner ((before ++ [(old, n)]) ++ (k, m) :: after)))) (linkShape s q n m k)
          m (m + 1) ks := by
        refine hrest.mono (fun j hj => ⟨?_, rfl⟩) (fun j hj => linkShape_of_ne (by omega))
          (fun _ _ y hy _ => ?_) fun _ _ _ _ _ _ => linkShape_subset
        · rw [Function.update_of_ne (hmq j hj)]
        · rwa [linkShape_of_ne (by omega)]
      obtain ⟨s', hforest, hlevels, hbelow⟩ := ih hlinked (Function.update_self ..)
        (by rw [Function.update_of_ne (hmq m (.inl rfl))]; exact hnode') (Nat.lt_succ_self m)
        (fun j hj hj' => ⟨hfree j (by omega) (by rw [List.length_cons]; omega),
          by rw [Set.mem_singleton_iff]; omega⟩)
        hsiblings' hsorted.2
      refine ⟨s', ?_, hlevels, fun j hj => ?_⟩
      swap
      · have hjn : j ≠ n := by
          rintro rfl
          exact lt_irrefl _ hj
        have hjm : j ≠ m := by
          rintro rfl
          rw [hsibling.level] at hj
          exact lt_irrefl _ hj
        have hj' : (linkShape s q n m k).level j < (linkShape s q n m k).level m := by
          change s.level j < s.level m
          rwa [hsibling.level]
        obtain ⟨hspan, hseparator⟩ := hbelow j hj'
        exact ⟨hspan.trans (linkShape_of_ne hjn), hseparator.trans (by simp [linkShape, hjm])⟩
      have hfree' : (free \ {m}) \ {j | m + 1 ≤ j ∧ j < m + 1 + ks.length} =
          free \ {j | m ≤ j ∧ j < m + (k :: ks).length} := by
        ext j
        simp only [Set.mem_sdiff, Set.mem_singleton_iff, Set.mem_ofPred_eq, List.length_cons]
        constructor
        · rintro ⟨⟨hj, hjm⟩, hnot⟩
          exact ⟨hj, by omega⟩
        · rintro ⟨hj, hnot⟩
          exact ⟨⟨hj, by omega⟩, by omega⟩
      rw [hfree', Function.update_idem] at hforest
      simpa [List.range'_succ] using hforest

/-- A new root above the old one and the parts that were split from it. -/
theorem plant {R : Nat} {node : Node κ} {ks : List κ} (h : Forest nodes root pending free s)
    (hroot : nodes root = some node) (hfirst : node.first? = some k) (hR : nodes R = none)
    (hrootFree : root ∉ free) (hrootm : root < m)
    (hfree : ∀ j, m ≤ j → j < m + ks.length → j ∈ free)
    (hsiblings : Siblings nodes s root m ks) (hsorted : (k :: ks).Pairwise (· < ·)) :
    ∃ s', Forest (Function.update nodes R (some (.inner ((k, root) ::
        ks.zip (List.range' m ks.length))))) R pending
      (free \ {j | m ≤ j ∧ j < m + ks.length}) s' ∧
      (∀ j, j ≠ R → s'.level j = s.level j) ∧
      ∀ j, j ≠ R → s.level j < s.level root →
        s'.span j = s.span j ∧ s'.separator j = s.separator j := by
  have hok := h.ok root node hroot
  have hgrown := h.grow hroot hR hrootFree (hok.within_first hfirst)
  have hneR : ∀ j, (nodes j).isSome → j ≠ R := by
    rintro j hj rfl
    rw [hR] at hj
    cases hj
  have hrootR : root ≠ R := hneR root h.root_some
  have hsomeFree : ∀ j, m ≤ j ∧ j < m + ks.length → j ≠ R :=
    fun j hj => hneR j (h.free_some j (hfree j hj.1 hj.2))
  have hgrowSpan : ∀ j, j ≠ R → j ≠ root → (growShape s pending root R k).span j = s.span j :=
    fun j hj hjroot => by simp [growShape, hj, hjroot]
  have hsiblings' : Siblings (Function.update nodes R (some (.inner [(k, root)])))
      (growShape s pending root R k) root m ks := by
    refine hsiblings.mono (fun j hj => ?_) (fun j hj => ?_)
      (fun k' hk' y _ hle => ?_) fun j hj node' hnode' c hc => ?_
    · have hjR : j ≠ R := by
        obtain rfl | hj := hj
        · exact hrootR
        · exact hsomeFree j hj
      exact ⟨Function.update_of_ne hjR .., by simp [growShape, hjR]⟩
    · exact hgrowSpan j (hsomeFree j hj) (by omega)
    · have hlt := (List.pairwise_cons.mp hsorted).1 k' (List.mem_of_mem_head? hk')
      simp only [growShape, hrootR, if_false, if_true]
      exact .inl (hlt.le.trans hle)
    · obtain ⟨entries, key, hp, hmem⟩ := target_of_mem hnode' hc
      have hc' := h.closed j entries _ hp hmem
      rw [hgrowSpan c (hneR c hc') (h.target_ne_root hp hmem).1]
  have hself : Function.update nodes R (some (.inner [(k, root)])) R =
      some (.inner ([] ++ (k, root) :: [])) := Function.update_self ..
  obtain ⟨s', hforest, hlevel, hbelow⟩ := hgrown.linkAll hself
    (by rw [Function.update_of_ne hrootR, hroot]) hrootm hfree hsiblings' hsorted
  refine ⟨s', ?_, fun j hj => ?_, fun j hj hlt => ?_⟩
  · rw [Function.update_idem] at hforest
    simpa using hforest
  · rw [hlevel]
    simp [growShape, hj]
  · have hlt' :
      (growShape s pending root R k).level j < (growShape s pending root R k).level root := by
      simpa [growShape, hj, hrootR] using hlt
    obtain ⟨hspan, hseparator⟩ := hbelow j hlt'
    have hjroot : j ≠ root := by
      rintro rfl
      exact lt_irrefl _ hlt
    rw [hspan, hseparator, hgrowSpan j hj hjroot]
    simp [growShape, hjroot]

end Forest
end Vsql.Foundation
