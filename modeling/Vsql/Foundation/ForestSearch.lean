import Mathlib.Data.List.Chain
import Mathlib.Data.List.Perm.Subperm
import Mathlib.Logic.Relation
import Vsql.Foundation.SearchForest

/-!
# Searching in a forest

At each node that is not a leaf a search takes the last entry that is not above
the key, or the first one if all of them are.  It ends at the only leaf that can
hold the key.  Before a new key is added there, the spans on the way are widened
by it, and the key is pending as long as it is below the first entries.
-/

namespace Vsql.Foundation

variable {κ : Type} [LinearOrder κ]

/-- The entry that a search takes. -/
structure Chosen (k : κ) (before : List (κ × Nat)) (e : κ × Nat)
    (after : List (κ × Nat)) : Prop where
  le_or_first : e.1 ≤ k ∨ before = []
  after : ∀ a ∈ after, k < a.1

omit [LinearOrder κ] in
def Links (nodes : NodeMap κ) (p c : Nat) : Prop :=
  ∃ entries k, nodes p = some (.inner entries) ∧ (k, c) ∈ entries

/-- The path of a search from a node to a leaf. -/
inductive Descends (nodes : NodeMap κ) (k : κ) : Nat → List Nat → Nat → Prop where
  | leaf {n : Nat} {keys : List κ} (h : nodes n = some (.leaf keys)) : Descends nodes k n [n] n
  | inner {n m : Nat} {before after : List (κ × Nat)} {e : κ × Nat} {path : List Nat}
      (h : nodes n = some (.inner (before ++ e :: after))) (hchosen : Chosen k before e after)
      (hbelow : Descends nodes k e.2 path m) : Descends nodes k n (n :: path) m

/-- A path of entries, from a node to the last one of the path. -/
inductive Chain (nodes : NodeMap κ) : Nat → List Nat → Nat → Prop where
  | single (n : Nat) : Chain nodes n [n] n
  | cons {n c m : Nat} {path : List Nat} (h : Links nodes n c) (hbelow : Chain nodes c path m) :
      Chain nodes n (n :: path) m

namespace Descends

variable {nodes : NodeMap κ} {k : κ} {n m : Nat} {path : List Nat}

theorem chain (h : Descends nodes k n path m) : Chain nodes n path m := by
  induction h with
  | leaf h => exact .single _
  | @inner n m before after e path h _ _ ih => exact .cons ⟨_, e.1, h, by simp⟩ ih

theorem isLeaf (h : Descends nodes k n path m) : ∃ keys, nodes m = some (.leaf keys) := by
  induction h with
  | leaf h => exact ⟨_, h⟩
  | inner _ _ _ ih => exact ih

theorem last_mem (h : Descends nodes k n path m) : m ∈ path := by
  induction h with
  | leaf h => simp
  | inner _ _ _ ih => exact List.mem_cons_of_mem _ ih

/-- Every node on the way but the first is chosen by the one before it. -/
theorem chosen_of_mem (h : Descends nodes k n path m) {c : Nat} (hc : c ∈ path) :
    c = n ∨ ∃ p ∈ path, ∃ before e after, nodes p = some (.inner (before ++ e :: after)) ∧
      Chosen k before e after ∧ e.2 = c := by
  induction h with
  | leaf h => exact .inl (by simpa using hc)
  | @inner p m before after e path h hchosen hbelow ih =>
      obtain rfl | hc := List.mem_cons.mp hc
      · exact .inl rfl
      · obtain rfl | ⟨q, hq, hrest⟩ := ih hc
        · exact .inr ⟨p, by simp, before, e, after, h, hchosen, rfl⟩
        · exact .inr ⟨q, List.mem_cons_of_mem _ hq, hrest⟩

end Descends

namespace Chain

variable {nodes : NodeMap κ} {n m : Nat} {path : List Nat}

omit [LinearOrder κ] in
theorem ne_nil (h : Chain nodes n path m) : path ≠ [] := by
  cases h <;> simp

omit [LinearOrder κ] in
theorem getLast? (h : Chain nodes n path m) : path.getLast? = some m := by
  induction h with
  | single n => rfl
  | cons _ hbelow ih => rw [List.getLast?_cons, ih]; rfl

omit [LinearOrder κ] in
/-- The last node of a path is linked to the one before it. -/
theorem dropLast (h : Chain nodes n path m) (hlong : path.length ≠ 1) :
    ∃ q, Chain nodes n path.dropLast q ∧ Links nodes q m := by
  induction h with
  | single n => exact absurd rfl hlong
  | @cons n c m path hlink hbelow ih =>
      cases hbelow with
      | single c => exact ⟨n, .single n, hlink⟩
      | @cons _ d _ path hlink' hbelow' =>
          have hne := hbelow'.ne_nil
          obtain ⟨q, hq, hqm⟩ := ih (by
            simp only [List.length_cons]
            have := List.length_pos_iff.mpr hne
            omega)
          exact ⟨q, .cons hlink hq, hqm⟩

omit [LinearOrder κ] in
theorem take {i c : Nat} (h : Chain nodes n path m) (hi : path[i]? = some c) :
    Chain nodes n (path.take (i + 1)) c := by
  induction h generalizing i with
  | single n =>
      cases i with
      | zero =>
          obtain rfl : n = c := Option.some.inj hi
          exact .single n
      | succ i => simp at hi
  | @cons n d m path hlink hbelow ih =>
      cases i with
      | zero =>
          obtain rfl : n = c := Option.some.inj hi
          exact .single n
      | succ i => exact .cons hlink (ih (by simpa using hi))

omit [LinearOrder κ] in
/-- A path goes through each of its nodes. -/
theorem through {before below : List Nat} {q : Nat} (h : Chain nodes n (before ++ q :: below) m) :
    Chain nodes n (before ++ [q]) q ∧ Chain nodes q (q :: below) m := by
  induction before generalizing n with
  | nil =>
      cases h with
      | single => exact ⟨.single _, .single _⟩
      | cons hlink hbelow => exact ⟨.single _, .cons hlink hbelow⟩
  | cons p before ih =>
      rw [List.cons_append] at h
      generalize hpath : before ++ q :: below = path at h
      cases h with
      | single => simp at hpath
      | cons hlink hbelow =>
          subst hpath
          obtain ⟨hupper, hlower⟩ := ih hbelow
          exact ⟨.cons hlink hupper, hlower⟩

omit [LinearOrder κ] in
theorem next {below : List Nat} {d : Nat} (h : Chain nodes n (n :: d :: below) m) :
    Links nodes n d ∧ Chain nodes d (d :: below) m := by
  cases h with
  | cons hlink hbelow =>
      cases hbelow with
      | single => exact ⟨hlink, .single _⟩
      | cons hlink' hbelow' => exact ⟨hlink, .cons hlink' hbelow'⟩

omit [LinearOrder κ] in
theorem snoc {c : Nat} (h : Chain nodes n path m) (hlink : Links nodes m c) :
    Chain nodes n (path ++ [c]) c := by
  induction h with
  | single n => exact .cons hlink (.single c)
  | cons hfirst _ ih => exact .cons hfirst (ih hlink)

omit [LinearOrder κ] in
/-- A path stays one when its links do. -/
theorem mono {nodes' : NodeMap κ} (h : Chain nodes n path m)
    (hlinks : ∀ p c, p ∈ path.dropLast → Links nodes p c → Links nodes' p c) :
    Chain nodes' n path m := by
  induction h with
  | single n => exact .single n
  | @cons n c m path hlink hbelow ih =>
      have hdrop : (n :: path).dropLast = n :: path.dropLast :=
        List.dropLast_cons_of_ne_nil hbelow.ne_nil
      rw [hdrop] at hlinks
      exact .cons (hlinks n c (by simp) hlink)
        (ih fun p c hp => hlinks p c (List.mem_cons_of_mem _ hp))

end Chain

/-! ## The first key of a node -/

omit [LinearOrder κ] in
def Node.first? : Node κ → Option κ
  | .leaf keys => keys.head?
  | .inner entries => entries.head?.map Prod.fst

theorem NodeOk.first_mem {s : Shape κ} {pending : Option κ} {n : Nat} {node : Node κ} {k : κ}
    (h : NodeOk s pending n node) (hk : node.first? = some k) : k ∈ s.span n := by
  cases node with
  | leaf keys => exact h.2.2 k (List.mem_of_mem_head? hk)
  | inner entries =>
      obtain ⟨e, he, rfl⟩ := Option.map_eq_some_iff.mp hk
      exact (h.2.1 e (List.mem_of_mem_head? he)).key_mem

theorem NodeOk.within_first {s : Shape κ} {pending : Option κ} {n : Nat} {node : Node κ} {k : κ}
    (h : NodeOk s pending n node) (hk : node.first? = some k) :
    node.Within s {y | k ≤ y ∨ pending = some y} := by
  cases node with
  | leaf keys =>
      obtain ⟨keys, rfl⟩ : ∃ rest, keys = k :: rest := List.head?_eq_some_iff.mp hk
      intro y hy
      obtain rfl | hy := List.mem_cons.mp hy
      · exact .inl (le_refl _)
      · exact .inl ((List.pairwise_cons.mp h.2.1).1 y hy)
  | inner entries =>
      obtain ⟨e, he, rfl⟩ := Option.map_eq_some_iff.mp hk
      obtain ⟨-, -, hpairs, hhead⟩ := h
      obtain ⟨rest, rfl⟩ : ∃ rest, entries = e :: rest := List.head?_eq_some_iff.mp he
      intro e' he'
      obtain rfl | he' := List.mem_cons.mp he'
      · exact ⟨.inl (le_refl _), fun y hy => hhead e' rfl y hy⟩
      · have hsep := (List.pairwise_cons.mp hpairs).1 e' he'
        exact ⟨.inl hsep.key_lt.le, fun y hy => .inl (hsep.key_lt.le.trans (hsep.above y hy))⟩

namespace Forest

variable {nodes : NodeMap κ} {root : Nat} {pending : Option κ} {free : Set Nat} {s : Shape κ}
variable {k : κ} {n m : Nat} {path : List Nat}

/-! ## Where a search ends -/

theorem exists_leads (h : Forest nodes root pending free s) (k : κ) (hn : (nodes n).isSome) :
    ∃ path m, Descends nodes k n path m := by
  induction hlevel : s.level n using Nat.strong_induction_on generalizing n with
  | _ level ih =>
      obtain ⟨node, hnode⟩ := Option.isSome_iff_exists.mp hn
      cases node with
      | leaf keys => exact ⟨_, n, .leaf hnode⟩
      | inner entries =>
          have hne := (h.ok n _ hnode).1
          obtain ⟨before, e, after, rfl, hchosen⟩ :
              ∃ before e after, entries = before ++ e :: after ∧ Chosen k before e after := by
            clear ih hnode
            induction entries with
            | nil => exact absurd rfl hne
            | cons e entries ih =>
                by_cases hany : ∃ a ∈ entries, a.1 ≤ k
                · obtain ⟨a, ha, hle⟩ := hany
                  obtain ⟨before, e', after, rfl, hchosen⟩ := ih (List.ne_nil_of_mem ha)
                  refine ⟨e :: before, e', after, rfl, .inl ?_, hchosen.after⟩
                  obtain hle' | rfl := hchosen.le_or_first
                  · exact hle'
                  · obtain rfl | ha := List.mem_cons.mp ha
                    · exact hle
                    · exact absurd hle (not_le.mpr (hchosen.after a ha))
                · push Not at hany
                  exact ⟨[], e, entries, rfl, .inr rfl, hany⟩
          have hentry := h.entry hnode (e := e) (by simp)
          have hlt : s.level e.2 < level := by
            have := hentry.level
            omega
          obtain ⟨path, m, hbelow⟩ := ih _ hlt (h.closed n _ e hnode (by simp)) rfl
          exact ⟨n :: path, m, .inner hnode hchosen hbelow⟩

theorem span_of_links {c : Nat} (h : Forest nodes root pending free s) (hlink : Links nodes n c) :
    s.span c ⊆ s.span n := by
  obtain ⟨entries, k, hn, hmem⟩ := hlink
  exact (h.entry hn hmem).span

theorem span_of_chain (h : Forest nodes root pending free s) (hchain : Chain nodes n path m) :
    s.span m ⊆ s.span n := by
  induction hchain with
  | single n => exact subset_refl _
  | cons hlink _ ih => exact ih.trans (h.span_of_links hlink)

/-- Every node is below the root or a free node. -/
theorem exists_chain (h : Forest nodes root pending free s) (hn : (nodes n).isSome) :
    ∃ top path, (top = root ∨ top ∈ free) ∧ Chain nodes top path n := by
  induction hdepth : s.level root - s.level n using Nat.strong_induction_on generalizing n with
  | _ depth ih =>
      by_cases htop : n = root ∨ n ∈ free
      · exact ⟨n, [n], htop, .single n⟩
      · rw [not_or] at htop
        obtain ⟨p, entries, k, hp, hmem⟩ := h.linked n hn htop.1 htop.2
        have hlevel := (h.entry hp hmem).level
        have hle := h.level_le p (by rw [hp]; rfl)
        simp only at hlevel
        have hlt : s.level root - s.level p < depth := by omega
        obtain ⟨top, path, htop', hchain⟩ := ih _ hlt (by rw [hp]; rfl) rfl
        exact ⟨top, path ++ [n], htop', hchain.snoc ⟨entries, k, hp, hmem⟩⟩

theorem level_of_links {c : Nat} (h : Forest nodes root pending free s) (hlink : Links nodes n c) :
    s.level c + 1 = s.level n := by
  obtain ⟨entries, k, hn, hmem⟩ := hlink
  exact (h.entry hn hmem).level

/-- Only a key that is pending may be below the entry that leads to its span. -/
theorem separator_le {c : Nat} {old : κ} (h : Forest nodes root pending free s)
    (hlink : Links nodes n c) (hold : s.separator c = some old) (hk : k ∈ s.span c) :
    old ≤ k ∨ pending = some k := by
  obtain ⟨entries, key, hn, hmem⟩ := hlink
  have hsep := (h.entry hn hmem).separator
  rw [hold] at hsep
  obtain rfl : old = key := Option.some.inj hsep
  obtain ⟨-, -, hpairs, hhead⟩ := h.ok n _ hn
  cases entries with
  | nil => cases hmem
  | cons e entries =>
      obtain rfl | hmem := List.mem_cons.mp hmem
      · exact hhead _ rfl k hk
      · exact .inl (((List.pairwise_cons.mp hpairs).1 _ hmem).above k hk)

theorem level_le_of_chain (h : Forest nodes root pending free s) (hchain : Chain nodes n path m) :
    s.level m ≤ s.level n := by
  induction hchain with
  | single n => exact le_refl _
  | cons hlink _ ih =>
      have hlevel := h.level_of_links hlink
      omega

theorem level_of_chain (h : Forest nodes root pending free s) (hchain : Chain nodes n path m)
    {p : Nat} (hp : p ∈ path.dropLast) : s.level m < s.level p := by
  induction hchain with
  | single n => cases hp
  | cons hlink hbelow ih =>
      rw [List.dropLast_cons_of_ne_nil hbelow.ne_nil, List.mem_cons] at hp
      obtain rfl | hp := hp
      · have hlevel := h.level_of_links hlink
        have hle := h.level_le_of_chain hbelow
        omega
      · exact ih hp

theorem level_of_mem (h : Forest nodes root pending free s) (hchain : Chain nodes n path m) :
    path.Pairwise (fun a b => s.level b < s.level a) ∧ (∀ a ∈ path, s.level a ≤ s.level n) ∧
      s.level m + path.length = s.level n + 1 := by
  induction hchain with
  | single n => simp
  | @cons n c m path hlink _ ih =>
      obtain ⟨hpairs, hle, hlength⟩ := ih
      have hlevel := h.level_of_links hlink
      refine ⟨List.pairwise_cons.mpr ⟨fun a ha => ?_, hpairs⟩, fun a ha => ?_, ?_⟩
      · have := hle a ha
        omega
      · obtain rfl | ha := List.mem_cons.mp ha
        · exact le_refl _
        · have := hle a ha
          omega
      · rw [List.length_cons]
        omega

/-- A tree is not higher than it has nodes. -/
theorem level_lt (h : Forest nodes root pending free s) {bound : Nat}
    (hbound : ∀ n, (nodes n).isSome → n < bound) (k : κ) : s.level root < bound := by
  obtain ⟨path, m, hleads⟩ := h.exists_leads k h.root_some
  obtain ⟨hpairs, -, hlength⟩ := h.level_of_mem hleads.chain
  obtain ⟨keys, hm⟩ := hleads.isLeaf
  have hzero : s.level m = 0 := (h.ok m _ hm).1
  have hnodup : path.Nodup := hpairs.imp fun hlt heq => absurd (heq ▸ hlt) (lt_irrefl _)
  have hsub : path ⊆ List.range bound := by
    intro a ha
    rw [List.mem_range]
    obtain rfl | ⟨p, -, before, e, after, hp, -, rfl⟩ := hleads.chosen_of_mem ha
    · exact hbound _ h.root_some
    · exact hbound _ (h.closed p _ e hp (by simp))
  have hle := (List.subperm_of_subset hnodup hsub).length_le
  rw [List.length_range] at hle
  omega

/-- The path to a node does not depend on the content of the node. -/
theorem chain_update (h : Forest nodes root pending free s) (hchain : Chain nodes n path m)
    (node : Option (Node κ)) : Chain (Function.update nodes m node) n path m := by
  refine hchain.mono fun p c hp hlink => ?_
  have hlevel := h.level_of_chain hchain hp
  have hne : p ≠ m := by
    rintro rfl
    exact lt_irrefl _ hlevel
  obtain ⟨entries, key, hp', hmem⟩ := hlink
  exact ⟨entries, key, by rwa [Function.update_of_ne hne], hmem⟩

/-- A span that holds a key is the one of the entry that the search takes. -/
theorem chosen_unique {before after : List (κ × Nat)} {e e' : κ × Nat}
    (h : Forest nodes root pending free s) (hn : nodes n = some (.inner (before ++ e :: after)))
    (hchosen : Chosen k before e after) (he' : e' ∈ before ++ e :: after)
    (hk : k ∈ s.span e'.2) : e' = e := by
  have hpairs := (h.ok n _ hn).2.2.1
  rw [List.pairwise_append, List.pairwise_cons] at hpairs
  obtain ⟨-, ⟨hafter, -⟩, hbefore⟩ := hpairs
  obtain hmem | hmem := List.mem_append.mp he'
  · -- The search goes further than an entry whose span ends before the key.
    have hsep := hbefore e' hmem e (by simp)
    obtain hle | hnil := hchosen.le_or_first
    · exact absurd (hsep.below k hk) (not_lt.mpr hle)
    · rw [hnil] at hmem
      cases hmem
  · obtain rfl | hmem := List.mem_cons.mp hmem
    · rfl
    · exact absurd ((hafter e' hmem).above k hk) (not_le.mpr (hchosen.after e' hmem))

/-- The search for a key finds the leaf whose span holds it. -/
theorem leads_unique (h : Forest nodes root pending free s) {path' : List Nat} {m' : Nat}
    {keys : List κ} (hchain : Chain nodes n path m) (hm : nodes m = some (.leaf keys))
    (hk : k ∈ s.span m) (hleads : Descends nodes k n path' m') : m' = m := by
  induction hchain generalizing path' with
  | single n =>
      cases hleads with
      | leaf => rfl
      | inner hn =>
          rw [hn] at hm
          cases hm
  | @cons n c m path hlink hbelow ih =>
      obtain ⟨entries, key, hn, hmem⟩ := hlink
      cases hleads with
      | leaf hleaf =>
          rw [hn] at hleaf
          cases hleaf
      | inner hn' hchosen hrest =>
          rw [hn] at hn'
          cases hn'
          have heq := h.chosen_unique hn hchosen hmem (h.span_of_chain hbelow hk)
          rw [← heq] at hrest
          exact ih hm hk hrest

/-! ## Widening the spans on the way -/

end Forest

def widenShape (s : Shape κ) (k : κ) (path : List Nat) : Shape κ where
  level := s.level
  span j := if j ∈ path then insert k (s.span j) else s.span j
  separator := s.separator
  parent := s.parent

omit [LinearOrder κ] in
theorem mem_widenShape {s : Shape κ} {k y : κ} {path : List Nat} {j : Nat} :
    y ∈ (widenShape s k path).span j ↔ j ∈ path ∧ y = k ∨ y ∈ s.span j := by
  unfold widenShape
  by_cases hj : j ∈ path <;> simp [hj]

namespace Forest

variable {nodes : NodeMap κ} {root : Nat} {pending : Option κ} {free : Set Nat} {s : Shape κ}
variable {k : κ} {n m : Nat} {path : List Nat}

/-- A key can be added to the spans of the nodes that a search for it passes. -/
theorem widen (h : Forest nodes root none free s) (hleads : Descends nodes k root path m) :
    Forest nodes root (some k) free (widenShape s k path) := by
  -- A node of the path that an entry leads to is chosen there.
  have hchosen : ∀ p entries e, nodes p = some (.inner entries) → e ∈ entries → e.2 ∈ path →
      p ∈ path ∧ ∃ before after, entries = before ++ e :: after ∧ Chosen k before e after := by
    intro p entries e hp he hmem
    obtain hroot | ⟨q, hq, before, e', after, hnode, hchosen, htarget⟩ :=
      hleads.chosen_of_mem hmem
    · exact absurd hroot (h.target_ne_root hp he).1
    · obtain ⟨rfl, rfl⟩ := h.entry_unique hnode hp (by simp) he htarget
      rw [hnode] at hp
      cases hp
      exact ⟨hq, before, after, rfl, hchosen⟩
  have hsub : ∀ j, s.span j ⊆ (widenShape s k path).span j :=
    fun j y hy => mem_widenShape.mpr (.inr hy)
  constructor
  · exact h.root_some
  · exact fun y => hsub root (h.root_span y)
  · exact h.free_some
  · exact h.top
  · exact h.level_le
  · exact h.linked
  · exact h.closed
  · intro p node hp
    cases node with
    | leaf keys =>
        obtain ⟨hzero, hsorted, hkeys⟩ := h.ok p _ hp
        exact ⟨hzero, hsorted, fun y hy => hsub p (hkeys y hy)⟩
    | inner entries =>
        obtain ⟨hne, hentries, hpairs, hhead⟩ := h.ok p _ hp
        refine ⟨hne, fun e he => ?_, ?_, fun e he y hy => ?_⟩
        · obtain ⟨hkey, hl, hpar, hsep, hspan⟩ := hentries e he
          refine ⟨hsub p hkey, hl, hpar, hsep, fun y hy => ?_⟩
          rw [mem_widenShape] at hy ⊢
          obtain ⟨hmem, rfl⟩ | hy := hy
          · exact .inl ⟨(hchosen p entries e hp he hmem).1, rfl⟩
          · exact .inr (hspan hy)
        · have hsplit : ∀ before e after e', entries = before ++ e :: after → e' ∈ entries →
              (e.1 < e'.1 → e' ∈ after) ∧ (e'.1 < e.1 → e' ∈ before) := by
            rintro before e after e' rfl he'
            rw [List.pairwise_append, List.pairwise_cons] at hpairs
            obtain hmem | hmem := List.mem_append.mp he'
            · have hlt := (hpairs.2.2 e' hmem e (by simp)).key_lt
              exact ⟨fun hgt => absurd hgt hlt.asymm, fun _ => hmem⟩
            · obtain rfl | hmem := List.mem_cons.mp hmem
              · exact ⟨fun hlt => absurd hlt (lt_irrefl _), fun hlt => absurd hlt (lt_irrefl _)⟩
              · have hlt := (hpairs.2.1.1 e' hmem).key_lt
                exact ⟨fun _ => hmem, fun hgt => absurd hgt hlt.asymm⟩
          refine hpairs.imp_of_mem fun {e e'} he he' hsep => ?_
          refine ⟨hsep.key_lt, fun y hy => ?_, fun y hy => ?_⟩
          · rw [mem_widenShape] at hy
            obtain ⟨hmem, rfl⟩ | hy := hy
            · obtain ⟨-, before, after, heq, hch⟩ := hchosen p entries e hp he hmem
              exact hch.after e' ((hsplit before e after e' heq he').1 hsep.key_lt)
            · exact hsep.below y hy
          · rw [mem_widenShape] at hy
            obtain ⟨hmem, rfl⟩ | hy := hy
            · obtain ⟨-, before, after, heq, hch⟩ := hchosen p entries e' hp he' hmem
              have hbefore := (hsplit before e' after e heq he).2 hsep.key_lt
              exact hch.le_or_first.resolve_right (List.ne_nil_of_mem hbefore)
            · exact hsep.above y hy
        · have hmem := List.mem_of_mem_head? he
          rw [mem_widenShape] at hy
          obtain ⟨-, rfl⟩ | hy := hy
          · exact .inr rfl
          · exact .inl ((hhead e he y hy).resolve_right (by simp))

theorem span_unique {entries : List (κ × Nat)} {e e' : κ × Nat}
    (h : Forest nodes root pending free s) (hn : nodes n = some (.inner entries))
    (he : e ∈ entries) (he' : e' ∈ entries) (hk : k ∈ s.span e.2) (hk' : k ∈ s.span e'.2) :
    e = e' := by
  have hpairs := (h.ok n _ hn).2.2.1
  have himp : entries.Pairwise fun a b => k ∈ s.span a.2 → k ∈ s.span b.2 → a = b :=
    hpairs.imp fun hsep ha hb => absurd (hsep.below k ha) (not_lt.mpr (hsep.above k hb))
  refine List.Pairwise.forall_of_forall_of_flip (fun _ _ _ _ => rfl) himp ?_ he he' hk hk'
  exact himp.imp fun hab hb ha => (hab ha hb).symm

/-- The nodes whose span holds a key are those on the way to the leaf whose span does. -/
theorem mem_of_span {path' : List Nat} (h : Forest nodes root pending free s)
    (hchain : Chain nodes root path m) {keys : List κ} (hm : nodes m = some (.leaf keys))
    (hk : k ∈ s.span m) (hchain' : Chain nodes root path' n) (hkn : k ∈ s.span n) :
    n ∈ path := by
  generalize root = start at hchain hchain'
  induction hchain' generalizing path with
  | single q => cases hchain <;> simp
  | cons hlink hbelow ih =>
      obtain ⟨entries, key, hq, hmem⟩ := hlink
      cases hchain with
      | single =>
          rw [hq] at hm
          cases hm
      | cons hlink' hbelow' =>
          obtain ⟨entries', key', hq', hmem'⟩ := hlink'
          rw [hq] at hq'
          cases hq'
          have heq := h.span_unique hq hmem hmem' (h.span_of_chain hbelow hkn)
            (h.span_of_chain hbelow' hk)
          cases heq
          exact List.mem_cons_of_mem _ (ih hkn hbelow')

/-- A key that is not below any first entry is no longer pending. -/
theorem settle (h : Forest nodes root (some k) free s)
    (hfirst : ∀ n entries e, nodes n = some (.inner entries) → entries.head? = some e →
      k ∈ s.span e.2 → e.1 ≤ k) : Forest nodes root none free s := by
  refine ⟨h.root_some, h.root_span, h.free_some, h.top, h.level_le, h.linked, h.closed,
    fun n node hn => ?_⟩
  cases node with
  | leaf keys => exact h.ok n _ hn
  | inner entries =>
      obtain ⟨hne, hentries, hpairs, hhead⟩ := h.ok n _ hn
      refine ⟨hne, hentries, hpairs, fun e he y hy => .inl ?_⟩
      obtain hle | hsome := hhead e he y hy
      · exact hle
      · obtain rfl : k = y := Option.some.inj hsome
        exact hfirst n entries e hn he hy

end Forest
end Vsql.Foundation
