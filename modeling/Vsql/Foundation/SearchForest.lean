import Mathlib.Data.Set.Insert
import Mathlib.Logic.Function.Basic
import Mathlib.Order.Basic

/-!
# Search trees whose pages are rewritten one at a time

A search tree is a map from page numbers to nodes: a leaf has keys, an inner
node has entries that lead to other nodes.  While a tree is being changed some
nodes are not linked yet, so the object studied here is a forest: one root, and
a set of free nodes that no entry leads to.

A `Shape` gives every node a level, a span of keys that may be found below it,
and the entry that leads to it.  What has to hold of a node only depends on the
shape of the node and of its children, so replacing one node is a local matter.
Every entry but the first of a node is a lower bound of the span below it.  The
first one is too, except for one key that has just been added: `pending`.
-/

namespace Vsql.Foundation

inductive Node (κ : Type) where
  | leaf (keys : List κ)
  | inner (entries : List (κ × Nat))

abbrev NodeMap (κ : Type) := Nat → Option (Node κ)

structure Shape (κ : Type) where
  level : Nat → Nat
  span : Nat → Set κ
  separator : Nat → Option κ
  parent : Nat → Option Nat

section

variable {κ : Type} [LinearOrder κ]

structure EntryOk (s : Shape κ) (n : Nat) (e : κ × Nat) : Prop where
  key_mem : e.1 ∈ s.span n
  level : s.level e.2 + 1 = s.level n
  parent : s.parent e.2 = some n
  separator : s.separator e.2 = some e.1
  span : s.span e.2 ⊆ s.span n

/-- The first entry stays before the second one, and so do their spans. -/
structure Separated (s : Shape κ) (e e' : κ × Nat) : Prop where
  key_lt : e.1 < e'.1
  below : ∀ y ∈ s.span e.2, y < e'.1
  above : ∀ y ∈ s.span e'.2, e'.1 ≤ y

def NodeOk (s : Shape κ) (pending : Option κ) (n : Nat) : Node κ → Prop
  | .leaf keys =>
      s.level n = 0 ∧ keys.Pairwise (· ≤ ·) ∧ ∀ k ∈ keys, k ∈ s.span n
  | .inner entries =>
      entries ≠ [] ∧ (∀ e ∈ entries, EntryOk s n e) ∧
        entries.Pairwise (Separated s) ∧
        ∀ e ∈ entries.head?, ∀ y ∈ s.span e.2, e.1 ≤ y ∨ pending = some y

structure Forest (nodes : NodeMap κ) (root : Nat) (pending : Option κ)
    (free : Set Nat) (s : Shape κ) : Prop where
  root_some : (nodes root).isSome
  root_span : ∀ y, y ∈ s.span root
  free_some : ∀ n ∈ free, (nodes n).isSome
  top : ∀ n, n = root ∨ n ∈ free → s.parent n = none
  level_le : ∀ n, (nodes n).isSome → s.level n ≤ s.level root
  linked : ∀ n, (nodes n).isSome → n ≠ root → n ∉ free →
    ∃ p entries k, nodes p = some (.inner entries) ∧ (k, n) ∈ entries
  closed : ∀ p entries e, nodes p = some (.inner entries) → e ∈ entries →
    (nodes e.2).isSome
  ok : ∀ n node, nodes n = some node → NodeOk s pending n node

/-! ## Local changes -/

def Node.targets : Node κ → List Nat
  | .leaf _ => []
  | .inner entries => entries.map Prod.snd

/-- Everything that a node holds is in a set of keys. -/
def Node.Within (s : Shape κ) (keep : Set κ) : Node κ → Prop
  | .leaf keys => ∀ k ∈ keys, k ∈ keep
  | .inner entries => ∀ e ∈ entries, e.1 ∈ keep ∧ s.span e.2 ⊆ keep

/-- A node stays right when its own span grows and those below it shrink. -/
theorem NodeOk.mono {s s' : Shape κ} {pending : Option κ} {n : Nat}
    {node : Node κ} (h : NodeOk s pending n node)
    (hlevel : s'.level n = s.level n) (hspan : s.span n ⊆ s'.span n)
    (htargets : ∀ c ∈ node.targets, s'.level c = s.level c ∧
      s'.parent c = s.parent c ∧ s'.separator c = s.separator c ∧
      s'.span c ⊆ s.span c) :
    NodeOk s' pending n node := by
  cases node with
  | leaf keys =>
      obtain ⟨hzero, hsorted, hkeys⟩ := h
      exact ⟨hlevel.trans hzero, hsorted, fun k hk => hspan (hkeys k hk)⟩
  | inner entries =>
      obtain ⟨hne, hentries, hpairs, hhead⟩ := h
      have hchild : ∀ e ∈ entries, s'.level e.2 = s.level e.2 ∧
          s'.parent e.2 = s.parent e.2 ∧
          s'.separator e.2 = s.separator e.2 ∧ s'.span e.2 ⊆ s.span e.2 :=
        fun e he => htargets e.2 (List.mem_map_of_mem he)
      refine ⟨hne, fun e he => ?_, ?_, fun e he y hy => ?_⟩
      · obtain ⟨hl, hp, hs, hsub⟩ := hchild e he
        obtain ⟨hkey, hl', hp', hs', hsub'⟩ := hentries e he
        exact ⟨hspan hkey, by rw [hl, hlevel, hl'], hp.trans hp', hs.trans hs',
          fun y hy => hspan (hsub' (hsub hy))⟩
      · refine hpairs.imp_of_mem fun he he' hsep => ?_
        exact ⟨hsep.key_lt, fun y hy => hsep.below y ((hchild _ he).2.2.2 hy),
          fun y hy => hsep.above y ((hchild _ he').2.2.2 hy)⟩
      · exact hhead e he y ((hchild e (List.mem_of_mem_head? he)).2.2.2 hy)

/-- The own span of a node shrinks to a set that holds all of its content. -/
theorem NodeOk.narrow {s s' : Shape κ} {pending : Option κ} {n : Nat}
    {node : Node κ} {keep : Set κ} (h : NodeOk s pending n node)
    (hkeep : node.Within s keep) (hlevel : s'.level n = s.level n)
    (hspan : s.span n ∩ keep ⊆ s'.span n)
    (htargets : ∀ c ∈ node.targets, s'.level c = s.level c ∧
      s'.parent c = s.parent c ∧ s'.separator c = s.separator c ∧
      s'.span c = s.span c) :
    NodeOk s' pending n node := by
  cases node with
  | leaf keys =>
      obtain ⟨hzero, hsorted, hkeys⟩ := h
      exact ⟨hlevel.trans hzero, hsorted,
        fun k hk => hspan ⟨hkeys k hk, hkeep k hk⟩⟩
  | inner entries =>
      obtain ⟨hne, hentries, hpairs, hhead⟩ := h
      have hchild : ∀ e ∈ entries, s'.level e.2 = s.level e.2 ∧
          s'.parent e.2 = s.parent e.2 ∧
          s'.separator e.2 = s.separator e.2 ∧ s'.span e.2 = s.span e.2 :=
        fun e he => htargets e.2 (List.mem_map_of_mem he)
      refine ⟨hne, fun e he => ?_, ?_, fun e he y hy => ?_⟩
      · obtain ⟨hl, hp, hs, heq⟩ := hchild e he
        obtain ⟨hkey, hl', hp', hs', hsub⟩ := hentries e he
        obtain ⟨hkeyKeep, hsubKeep⟩ := hkeep e he
        refine ⟨hspan ⟨hkey, hkeyKeep⟩, by rw [hl, hlevel, hl'], hp.trans hp',
          hs.trans hs', ?_⟩
        rw [heq]
        exact fun y hy => hspan ⟨hsub hy, hsubKeep hy⟩
      · refine hpairs.imp_of_mem fun he he' hsep => ?_
        refine ⟨hsep.key_lt, ?_, ?_⟩
        · rw [(hchild _ he).2.2.2]
          exact hsep.below
        · rw [(hchild _ he').2.2.2]
          exact hsep.above
      · rw [(hchild e (List.mem_of_mem_head? he)).2.2.2] at hy
        exact hhead e he y hy

namespace Forest

variable {nodes : NodeMap κ} {root : Nat} {pending : Option κ}
variable {free : Set Nat} {s : Shape κ}

theorem entry (h : Forest nodes root pending free s) {p : Nat}
    {entries : List (κ × Nat)} (hp : nodes p = some (.inner entries))
    {e : κ × Nat} (he : e ∈ entries) : EntryOk s p e :=
  (h.ok p _ hp).2.1 e he

/-- Only one entry leads to a node. -/
theorem entry_unique (h : Forest nodes root pending free s) {p p' : Nat}
    {entries entries' : List (κ × Nat)}
    (hp : nodes p = some (.inner entries))
    (hp' : nodes p' = some (.inner entries')) {e e' : κ × Nat}
    (he : e ∈ entries) (he' : e' ∈ entries') (htarget : e.2 = e'.2) :
    p = p' ∧ e = e' := by
  have hok := h.entry hp he
  have hok' := h.entry hp' he'
  have hparent := hok.parent
  rw [htarget, hok'.parent] at hparent
  have hsep := hok.separator
  rw [htarget, hok'.separator] at hsep
  exact ⟨(Option.some.inj hparent).symm,
    Prod.ext (Option.some.inj hsep).symm htarget⟩

theorem target_ne_root (h : Forest nodes root pending free s) {p : Nat}
    {entries : List (κ × Nat)} (hp : nodes p = some (.inner entries))
    {e : κ × Nat} (he : e ∈ entries) : e.2 ≠ root ∧ e.2 ∉ free := by
  have hparent := (h.entry hp he).parent
  constructor
  · intro heq
    rw [h.top _ (.inl heq)] at hparent
    cases hparent
  · intro hfree
    rw [h.top _ (.inr hfree)] at hparent
    cases hparent

theorem target_ne_self (h : Forest nodes root pending free s) {p : Nat}
    {entries : List (κ × Nat)} (hp : nodes p = some (.inner entries))
    {e : κ × Nat} (he : e ∈ entries) : e.2 ≠ p := by
  intro heq
  have hlevel := (h.entry hp he).level
  rw [heq] at hlevel
  omega

omit [LinearOrder κ] in
theorem target_of_mem {p : Nat} {node : Node κ} {c : Nat}
    (hp : nodes p = some node) (hc : c ∈ node.targets) :
    ∃ entries k, nodes p = some (.inner entries) ∧ (k, c) ∈ entries := by
  cases node with
  | leaf keys => cases hc
  | inner entries =>
      obtain ⟨⟨k, c'⟩, he, rfl⟩ := List.mem_map.mp hc
      exact ⟨entries, k, hp, he⟩

theorem ne_of_fresh (h : Forest nodes root pending free s) {m : Nat}
    (hm : nodes m = none) : m ≠ root ∧ m ∉ free := by
  constructor
  · rintro rfl
    simpa [hm] using h.root_some
  · intro hfree
    simpa [hm] using h.free_some m hfree

/-! ## Splitting a node in two -/

/-- The two halves of a node, the second of which starts with the key `k`. -/
inductive Splits (k : κ) : Node κ → Node κ → Node κ → Prop where
  | leaf {a b : List κ} (left_ne : a ≠ []) (right_head : b.head? = some k)
      (left_lt : ∀ y ∈ a, y < k) : Splits k (.leaf (a ++ b)) (.leaf a) (.leaf b)
  | inner {a b : List (κ × Nat)} (left_ne : a ≠ [])
      (right_head : b.head?.map Prod.fst = some k) :
      Splits k (.inner (a ++ b)) (.inner a) (.inner b)

def splitShape (s : Shape κ) (n m : Nat) (k : κ) (right : Node κ) : Shape κ where
  level j := if j = m then s.level n else s.level j
  span j := if j = m then s.span n ∩ {y | k ≤ y} else s.span j
  separator j := s.separator j
  parent j :=
    if j = m then none else if j ∈ right.targets then some m else s.parent j

theorem splitShape_of_ne {n m : Nat} {k : κ} {right : Node κ} {j : Nat}
    (hj : j ≠ m) :
    (splitShape s n m k right).level j = s.level j ∧
      (splitShape s n m k right).span j = s.span j := by
  simp [splitShape, hj]

/-- The halves of a node are right, if the second one is a new node. -/
private theorem splits_ok {n m : Nat} {node left right : Node κ} {k : κ}
    (h : Forest nodes root pending free s) (hn : nodes n = some node)
    (hm : nodes m = none) (hsplit : Splits k node left right) :
    NodeOk (splitShape s n m k right) pending n left ∧
      NodeOk (splitShape s n m k right) pending m right := by
  have hnm : n ≠ m := by
    rintro rfl
    rw [hm] at hn
    cases hn
  cases hsplit with
  | @leaf a b hne hhead hlt =>
      obtain ⟨hzero, hsorted, hkeys⟩ := h.ok n _ hn
      rw [List.pairwise_append] at hsorted
      obtain ⟨hleft, hright, -⟩ := hsorted
      refine ⟨⟨by simpa [splitShape, hnm] using hzero, hleft, fun y hy => ?_⟩,
        ⟨by simpa [splitShape] using hzero, hright, fun y hy => ?_⟩⟩
      · simpa [splitShape, hnm] using hkeys y (List.mem_append_left _ hy)
      · have hk : k ≤ y := by
          cases b with
          | nil => cases hy
          | cons b₀ b =>
              obtain rfl : b₀ = k := Option.some.inj hhead
              rcases List.mem_cons.mp hy with rfl | hy
              · exact le_refl _
              · exact (List.pairwise_cons.mp hright).1 y hy
        simpa [splitShape] using ⟨hkeys y (List.mem_append_right _ hy), hk⟩
  | @inner a b hne hhead =>
      obtain ⟨-, hentries, hpairs, hfirst⟩ := h.ok n _ hn
      rw [List.pairwise_append] at hpairs
      obtain ⟨hleft, hright, hacross⟩ := hpairs
      have hfresh : ∀ e ∈ a ++ b, e.2 ≠ m := by
        rintro e he rfl
        simpa [hm] using h.closed n _ e hn he
      -- No target of the left half is one of the right half.
      have hapart : ∀ e ∈ a, e.2 ∉ (Node.inner b).targets := by
        intro e he hmem
        obtain ⟨e', he', htarget⟩ := List.mem_map.mp hmem
        have hsame := (h.entry_unique hn hn (List.mem_append_left _ he)
          (List.mem_append_right _ he') htarget.symm).2
        exact absurd (hacross e he e' he').key_lt (by rw [hsame]; exact lt_irrefl _)
      obtain ⟨a₀, ha₀⟩ := List.exists_mem_of_ne_nil _ hne
      have hlow : ∀ e ∈ b, k ≤ e.1 := by
        intro e he
        cases b with
        | nil => cases he
        | cons b₀ b =>
            obtain rfl : b₀.1 = k := Option.some.inj hhead
            rcases List.mem_cons.mp he with rfl | he
            · exact le_refl _
            · exact ((List.pairwise_cons.mp hright).1 e he).key_lt.le
      constructor
      · refine ⟨hne, fun e he => ?_, ?_, fun e he y hy => ?_⟩
        · obtain ⟨hkey, hlevel, hparent, hsep, hspan⟩ :=
            hentries e (List.mem_append_left _ he)
          have hem := hfresh e (List.mem_append_left _ he)
          have hright := hapart e he
          exact ⟨by simpa [splitShape, hnm] using hkey,
            by simpa [splitShape, hnm, hem] using hlevel,
            by simpa [splitShape, hem, hright] using hparent, hsep,
            by simpa [splitShape, hnm, hem] using hspan⟩
        · refine hleft.imp_of_mem fun he he' hsep => ?_
          obtain ⟨hlt, hbelow, habove⟩ := hsep
          refine ⟨hlt, ?_, ?_⟩
          · simpa [splitShape, hfresh _ (List.mem_append_left _ he)] using hbelow
          · simpa [splitShape, hfresh _ (List.mem_append_left _ he')] using habove
        · have hmem := List.mem_of_mem_head? he
          refine hfirst e ?_ y ?_
          · rw [Option.mem_def] at he ⊢
            rw [List.head?_append, he, Option.some_or]
          · simpa [splitShape, hfresh e (List.mem_append_left _ hmem)] using hy
      · refine ⟨?_, fun e he => ?_, ?_, fun e he y hy => ?_⟩
        · rintro rfl
          cases hhead
        · obtain ⟨hkey, hlevel, hparent, hsep, hspan⟩ :=
            hentries e (List.mem_append_right _ he)
          have hem := hfresh e (List.mem_append_right _ he)
          have htarget : e.2 ∈ (Node.inner b).targets := List.mem_map_of_mem he
          refine ⟨by simpa [splitShape] using ⟨hkey, hlow e he⟩,
            by simpa [splitShape, hem] using hlevel,
            by simp [splitShape, hem, htarget], hsep, fun y hy => ?_⟩
          simp only [splitShape, hem, if_false, if_true] at hy ⊢
          exact ⟨hspan hy,
            (hlow e he).trans ((hacross a₀ ha₀ e he).above y hy)⟩
        · refine hright.imp_of_mem fun he he' hsep => ?_
          obtain ⟨hlt, hbelow, habove⟩ := hsep
          refine ⟨hlt, ?_, ?_⟩
          · simpa [splitShape, hfresh _ (List.mem_append_right _ he)] using hbelow
          · simpa [splitShape, hfresh _ (List.mem_append_right _ he')] using habove
        · have hmem := List.mem_of_mem_head? he
          simp only [splitShape, hfresh e (List.mem_append_right _ hmem),
            if_false] at hy
          exact .inl ((hacross a₀ ha₀ e hmem).above y hy)

theorem Splits.targets {k : κ} {node left right : Node κ}
    (h : Splits k node left right) : ∀ c ∈ right.targets, c ∈ node.targets := by
  cases h with
  | leaf => exact fun c hc => hc
  | inner =>
      intro c hc
      simp only [Node.targets, List.map_append, List.mem_append] at hc ⊢
      exact .inr hc

theorem split (h : Forest nodes root pending free s) {n m : Nat}
    {node left right : Node κ} {k : κ} (hn : nodes n = some node)
    (hm : nodes m = none) (hsplit : Splits k node left right) :
    Forest (Function.update (Function.update nodes n (some left)) m (some right))
      root pending (insert m free) (splitShape s n m k right) := by
  have hnm : n ≠ m := by
    rintro rfl
    rw [hm] at hn
    cases hn
  obtain ⟨hroot, hfree⟩ := h.ne_of_fresh hm
  obtain ⟨hleftOk, hrightOk⟩ := splits_ok h hn hm hsplit
  have hother : ∀ j, j ≠ n → j ≠ m →
      Function.update (Function.update nodes n (some left)) m (some right) j =
        nodes j := by
    intro j hjn hjm
    rw [Function.update_of_ne hjm, Function.update_of_ne hjn]
  have hleft : Function.update (Function.update nodes n (some left)) m
      (some right) n = some left := by
    rw [Function.update_of_ne hnm, Function.update_self]
  have hright : Function.update (Function.update nodes n (some left)) m
      (some right) m = some right := Function.update_self ..
  have hsome : ∀ j, (nodes j).isSome → (Function.update
      (Function.update nodes n (some left)) m (some right) j).isSome := by
    intro j hj
    by_cases hjm : j = m
    · rw [hjm, hright]
      rfl
    by_cases hjn : j = n
    · rw [hjn, hleft]
      rfl
    · rwa [hother j hjn hjm]
  have hold : ∀ j, j ≠ m → (Function.update
      (Function.update nodes n (some left)) m (some right) j).isSome →
      (nodes j).isSome := by
    intro j hjm hj
    by_cases hjn : j = n
    · rw [hjn, hn]
      rfl
    · rwa [hother j hjn hjm] at hj
  -- Entries of the halves are entries of the node.
  have hentries : ∀ p entries e, Function.update
      (Function.update nodes n (some left)) m (some right) p =
        some (.inner entries) → e ∈ entries →
      ∃ p' entries', nodes p' = some (.inner entries') ∧ e ∈ entries' := by
    intro p entries e hp he
    by_cases hpm : p = m
    · rw [hpm, hright] at hp
      cases hsplit with
      | leaf => cases hp
      | inner =>
          cases hp
          exact ⟨n, _, hn, List.mem_append_right _ he⟩
    by_cases hpn : p = n
    · rw [hpn, hleft] at hp
      cases hsplit with
      | leaf => cases hp
      | inner =>
          cases hp
          exact ⟨n, _, hn, List.mem_append_left _ he⟩
    · rw [hother p hpn hpm] at hp
      exact ⟨p, entries, hp, he⟩
  have hnotRight : ∀ j, j = root ∨ j ∈ free → j ∉ right.targets := by
    intro j hj hmem
    obtain ⟨entries, k', hp, he⟩ := target_of_mem hn (hsplit.targets j hmem)
    obtain ⟨hne, hnf⟩ := h.target_ne_root hp he
    exact hj.elim hne hnf
  constructor
  · exact hsome root h.root_some
  · simpa [splitShape, Ne.symm hroot] using h.root_span
  · intro j hj
    rcases Set.mem_insert_iff.mp hj with rfl | hj
    · rw [hright]
      rfl
    · exact hsome j (h.free_some j hj)
  · intro j hj
    by_cases hjm : j = m
    · simp [splitShape, hjm]
    · have hj' : j = root ∨ j ∈ free := by
        simpa [Set.mem_insert_iff, hjm] using hj
      simpa [splitShape, hjm, hnotRight j hj'] using h.top j hj'
  · intro j hj
    simp only [splitShape, Ne.symm hroot, if_false]
    split
    · exact h.level_le n (by rw [hn]; rfl)
    · next hjm => exact h.level_le j (hold j hjm hj)
  · intro j hj hjroot hjfree
    rw [Set.mem_insert_iff, not_or] at hjfree
    obtain ⟨p, entries, k', hp, he⟩ :=
      h.linked j (hold j hjfree.1 hj) hjroot hjfree.2
    by_cases hpn : p = n
    · subst hpn
      rw [hn] at hp
      cases hsplit with
      | leaf => cases hp
      | inner =>
          cases hp
          rcases List.mem_append.mp he with he | he
          · exact ⟨p, _, k', hleft, he⟩
          · exact ⟨m, _, k', hright, he⟩
    · have hpm : p ≠ m := by
        rintro rfl
        rw [hm] at hp
        cases hp
      exact ⟨p, entries, k', by rw [hother p hpn hpm, hp], he⟩
  · intro p entries e hp he
    obtain ⟨p', entries', hp', he'⟩ := hentries p entries e hp he
    exact hsome _ (h.closed p' entries' e hp' he')
  · intro j node' hj
    by_cases hjm : j = m
    · subst hjm
      rw [hright] at hj
      cases hj
      exact hrightOk
    by_cases hjn : j = n
    · subst hjn
      rw [hleft] at hj
      cases hj
      exact hleftOk
    · rw [hother j hjn hjm] at hj
      refine (h.ok j node' hj).mono (by simp [splitShape, hjm])
        (by simp [splitShape, hjm]) fun c hc => ?_
      obtain ⟨entries, k', hp, he⟩ := target_of_mem hj hc
      have hcm : c ≠ m := by
        rintro rfl
        simpa [hm] using h.closed j entries _ hp he
      have hcright : c ∉ right.targets := by
        intro hmem
        obtain ⟨entries', k'', hp', he'⟩ :=
          target_of_mem hn (hsplit.targets c hmem)
        exact hjn (h.entry_unique hp hp' he he' rfl).1
      simp [splitShape, hcm, hcright]

/-! ## Replacing one node -/

/-- What has to be shown when the node `q` is replaced. -/
theorem replace (h : Forest nodes root pending free s) {q : Nat}
    {node node' : Node κ} (hq : nodes q = some node) {s' : Shape κ}
    {pending' : Option κ} {free' : Set Nat}
    (hspan : s'.span root = s.span root)
    (hlevel : ∀ j, s'.level j = s.level j)
    (hfree : ∀ j ∈ free', j ∈ free)
    (htop : ∀ j, j = root ∨ j ∈ free' → s'.parent j = none)
    (htargets : ∀ c ∈ node'.targets, (nodes c).isSome)
    (hlinked : ∀ j, j ∈ node.targets ∨ j ∈ free ∧ j ∉ free' →
      j ∈ node'.targets)
    (hok : NodeOk s' pending' q node')
    (hothers : ∀ j other, j ≠ q → nodes j = some other →
      NodeOk s' pending' j other) :
    Forest (Function.update nodes q (some node')) root pending' free' s' := by
  have hself : Function.update nodes q (some node') q = some node' :=
    Function.update_self ..
  have hother : ∀ j, j ≠ q → Function.update nodes q (some node') j = nodes j :=
    fun j hj => Function.update_of_ne hj ..
  have hsome : ∀ j, (Function.update nodes q (some node') j).isSome ↔
      (nodes j).isSome := by
    intro j
    by_cases hj : j = q
    · rw [hj, hself, hq]
      rfl
    · rw [hother j hj]
  -- An entry of the new node for every node that it leads to.
  have hentry : ∀ j ∈ node'.targets, ∃ entries k,
      Function.update nodes q (some node') q = some (.inner entries) ∧
        (k, j) ∈ entries :=
    fun j hj => target_of_mem hself hj
  constructor
  · exact (hsome root).mpr h.root_some
  · rw [hspan]
    exact h.root_span
  · exact fun j hj => (hsome j).mpr (h.free_some j (hfree j hj))
  · exact htop
  · intro j hj
    rw [hlevel, hlevel]
    exact h.level_le j ((hsome j).mp hj)
  · intro j hj hroot hnotFree
    by_cases hwasFree : j ∈ free
    · obtain ⟨entries, k, he⟩ := hentry j (hlinked j (.inr ⟨hwasFree, hnotFree⟩))
      exact ⟨q, entries, k, he⟩
    · obtain ⟨p, entries, k, hp, he⟩ :=
        h.linked j ((hsome j).mp hj) hroot hwasFree
      by_cases hpq : p = q
      · subst hpq
        rw [hq] at hp
        cases hp
        obtain ⟨entries', k', he'⟩ :=
          hentry j (hlinked j (.inl (List.mem_map_of_mem he)))
        exact ⟨p, entries', k', he'⟩
      · exact ⟨p, entries, k, by rw [hother p hpq, hp], he⟩
  · intro p entries e hp he
    rw [hsome]
    by_cases hpq : p = q
    · subst hpq
      rw [hself] at hp
      cases hp
      exact htargets e.2 (List.mem_map_of_mem he)
    · rw [hother p hpq] at hp
      exact h.closed p entries e hp he
  · intro j other hj
    by_cases hjq : j = q
    · subst hjq
      rw [hself] at hj
      cases hj
      exact hok
    · rw [hother j hjq] at hj
      exact hothers j other hjq hj

/-- Another content of a leaf, within its span. -/
theorem setLeaf (h : Forest nodes root pending free s) {q : Nat}
    {keys keys' : List κ} (hq : nodes q = some (.leaf keys))
    (hsorted : keys'.Pairwise (· ≤ ·)) (hspan : ∀ k ∈ keys', k ∈ s.span q) :
    Forest (Function.update nodes q (some (.leaf keys'))) root pending free s := by
  refine h.replace hq rfl (fun _ => rfl) (fun _ hj => hj) h.top
    (fun c hc => by cases hc) ?_ ⟨(h.ok q _ hq).1, hsorted, hspan⟩
    fun j other _ hj => h.ok j other hj
  rintro j (hj | ⟨hj, hnot⟩)
  · cases hj
  · exact absurd hj hnot

/-! ## Changing the entry that leads to a node -/

def rekeyShape (s : Shape κ) (n : Nat) (k : κ) : Shape κ where
  level := s.level
  span j := if j = n then s.span n ∩ {y | k ≤ y} else s.span j
  separator j := if j = n then some k else s.separator j
  parent := s.parent

/-- The key of an entry is raised, or lowered to one that is pending, when
everything below it is at least the new key. -/
theorem rekey (h : Forest nodes root pending free s) {q n : Nat}
    {before after : List (κ × Nat)} {old k : κ} {node : Node κ}
    (hq : nodes q = some (.inner (before ++ (old, n) :: after)))
    (hn : nodes n = some node) (hk : k ∈ s.span n)
    (hwithin : node.Within s {y | k ≤ y}) :
    Forest (Function.update nodes q
      (some (.inner (before ++ (k, n) :: after)))) root pending free
      (rekeyShape s n k) := by
  have hmem : (old, n) ∈ before ++ (old, n) :: after := by simp
  have hnq : n ≠ q := h.target_ne_self hq hmem
  have hnroot : n ≠ root := (h.target_ne_root hq hmem).1
  obtain ⟨-, hentries, hpairs, hhead⟩ := h.ok q _ hq
  -- The other entries lead elsewhere.
  have hothers : ∀ e ∈ before ++ (old, n) :: after, e ≠ (old, n) → e.2 ≠ n := by
    intro e he hne htarget
    exact hne (h.entry_unique hq hq he hmem htarget).2
  have hbeforeNe : ∀ e ∈ before, e ≠ (old, n) := by
    rintro e he rfl
    rw [List.pairwise_append] at hpairs
    exact lt_irrefl _ (hpairs.2.2 _ he _ (by simp)).key_lt
  have hafterNe : ∀ e ∈ after, e ≠ (old, n) := by
    rintro e he rfl
    rw [List.pairwise_append, List.pairwise_cons] at hpairs
    exact lt_irrefl _ (hpairs.2.1.1 _ he).key_lt
  have hbeforeTarget : ∀ e ∈ before, e.2 ≠ n :=
    fun e he => hothers e (by simp [he]) (hbeforeNe e he)
  have hafterTarget : ∀ e ∈ after, e.2 ≠ n :=
    fun e he => hothers e (by simp [he]) (hafterNe e he)
  have hspanSub : ∀ j, (rekeyShape s n k).span j ⊆ s.span j := by
    intro j y hy
    by_cases hj : j = n
    · subst hj
      simp only [rekeyShape, if_true] at hy
      exact hy.1
    · simpa [rekeyShape, hj] using hy
  refine h.replace hq ?_ (fun _ => rfl) (fun _ hj => hj) h.top ?_ ?_ ?_ ?_
  · simp [rekeyShape, Ne.symm hnroot]
  · intro c hc
    obtain ⟨e, he, rfl⟩ := List.mem_map.mp hc
    rcases List.mem_append.mp he with he | he
    · exact h.closed q _ e hq (by simp [he])
    · rcases List.mem_cons.mp he with rfl | he
      · rw [hn]
        rfl
      · exact h.closed q _ e hq (by simp [he])
  · rintro j (hj | ⟨hj, hnot⟩)
    · simpa [Node.targets] using hj
    · exact absurd hj hnot
  · -- The node with the changed entry.
    have hkeyMem : k ∈ s.span q := (hentries _ hmem).span hk
    have hentry : ∀ e ∈ before ++ (old, n) :: after, e.2 ≠ n →
        EntryOk (rekeyShape s n k) q e := by
      intro e he hne
      obtain ⟨hkey, hl, hp, hs, hsub⟩ := hentries e he
      exact ⟨by simpa [rekeyShape, Ne.symm hnq] using hkey, hl, hp,
        by simpa [rekeyShape, hne] using hs,
        by simpa [rekeyShape, hne, Ne.symm hnq] using hsub⟩
    have hsame : ∀ e e', e.2 ≠ n → e'.2 ≠ n → Separated s e e' →
        Separated (rekeyShape s n k) e e' := by
      intro e e' he he' hsep
      obtain ⟨hlt, hbelow, habove⟩ := hsep
      exact ⟨hlt, by simpa [rekeyShape, he] using hbelow,
        by simpa [rekeyShape, he'] using habove⟩
    rw [List.pairwise_append, List.pairwise_cons] at hpairs
    obtain ⟨hpb, ⟨hna, hpa⟩, hba⟩ := hpairs
    refine ⟨by simp, fun e he => ?_, ?_, fun e he y hy => ?_⟩
    · rcases List.mem_append.mp he with hb | he
      · exact hentry e (by simp [hb]) (hbeforeTarget e hb)
      rcases List.mem_cons.mp he with rfl | ha
      · obtain ⟨-, hl, hp, -, hsub⟩ := hentries _ hmem
        refine ⟨by simpa [rekeyShape, Ne.symm hnq] using hkeyMem, hl, hp,
          by simp [rekeyShape], fun y hy => ?_⟩
        simp only [rekeyShape, Ne.symm hnq, if_false]
        exact hsub (hspanSub n hy)
      · exact hentry e (by simp [ha]) (hafterTarget e ha)
    · rw [List.pairwise_append, List.pairwise_cons]
      refine ⟨?_, ⟨fun e he => ?_, ?_⟩, fun e he e' he' => ?_⟩
      · exact hpb.imp_of_mem fun he he' hsep =>
          hsame _ _ (hbeforeTarget _ he) (hbeforeTarget _ he') hsep
      · obtain ⟨-, hbelow, habove⟩ := hna e he
        refine ⟨hbelow k hk, fun y hy => hbelow y (hspanSub n hy), ?_⟩
        simpa [rekeyShape, hafterTarget e he] using habove
      · exact hpa.imp_of_mem fun he he' hsep =>
          hsame _ _ (hafterTarget _ he) (hafterTarget _ he') hsep
      · rcases List.mem_cons.mp he' with rfl | ha
        · obtain ⟨hlt, hbelow, habove⟩ := hba e he (old, n) (by simp)
          have hold : old ≤ k := habove k hk
          refine ⟨hlt.trans_le hold, fun y hy => ?_, fun y hy => ?_⟩
          · simp only [rekeyShape, hbeforeTarget e he, if_false] at hy
            exact (hbelow y hy).trans_le hold
          · simp only [rekeyShape, if_true] at hy
            exact hy.2
        · exact hsame _ _ (hbeforeTarget e he) (hafterTarget e' ha)
            (hba e he e' (by simp [ha]))
    · cases before with
      | nil =>
          obtain rfl : (k, n) = e := Option.some.inj he
          simp only [rekeyShape, if_true] at hy
          exact .inl hy.2
      | cons b before =>
          obtain rfl : b = e := Option.some.inj he
          simp only [rekeyShape, hbeforeTarget b (by simp), if_false] at hy
          exact hhead b (by simp) y hy
  · intro j other hjq hj
    by_cases hjn : j = n
    · subst hjn
      rw [hn] at hj
      cases hj
      refine (h.ok j node hn).narrow hwithin rfl (by simp [rekeyShape])
        fun c hc => ?_
      obtain ⟨entries, k', hp, he⟩ := target_of_mem hn hc
      have hcj : c ≠ j := h.target_ne_self hp he
      simp [rekeyShape, hcj]
    · refine (h.ok j other hj).mono rfl (by simp [rekeyShape, hjn])
        fun c hc => ?_
      obtain ⟨entries, k', hp, he⟩ := target_of_mem hj hc
      have hcn : c ≠ n := by
        rintro rfl
        exact hjq (h.entry_unique hp hq he hmem rfl).1
      simp [rekeyShape, hcn]

/-! ## Linking a free node -/

def linkShape (s : Shape κ) (q n m : Nat) (k : κ) : Shape κ where
  level := s.level
  span j := if j = n then s.span n ∩ {y | y < k} else s.span j
  separator j := if j = m then some k else s.separator j
  parent j := if j = m then some q else s.parent j

/-- A free node that has the upper part of the span of `n` is linked after it. -/
theorem link (h : Forest nodes root pending free s) {q n m : Nat}
    {before after : List (κ × Nat)} {old k : κ} {node : Node κ}
    (hq : nodes q = some (.inner (before ++ (old, n) :: after)))
    (hn : nodes n = some node) (hm : m ∈ free)
    (hlevel : s.level m = s.level n) (hold : old < k) (hk : k ∈ s.span n)
    (hwithin : node.Within s {y | y < k})
    (hspan : ∀ y ∈ s.span m, k ≤ y ∧ y ∈ s.span n) :
    Forest (Function.update nodes q
      (some (.inner (before ++ (old, n) :: (k, m) :: after)))) root pending
      (free \ {m}) (linkShape s q n m k) := by
  have hmem : (old, n) ∈ before ++ (old, n) :: after := by simp
  have hnq : n ≠ q := h.target_ne_self hq hmem
  obtain ⟨hnroot, hnfree⟩ := h.target_ne_root hq hmem
  have hnm : n ≠ m := fun heq => hnfree (heq ▸ hm)
  obtain ⟨-, hentries, hpairs, hhead⟩ := h.ok q _ hq
  have hqm : q ≠ m := by
    rintro rfl
    have := (hentries _ hmem).level
    simp only at this
    omega
  have hmroot : m ≠ root := by
    rintro rfl
    have hlev := (hentries _ hmem).level
    have hle := h.level_le q (by rw [hq]; rfl)
    simp only at hlev
    omega
  have hfresh : ∀ p entries e, nodes p = some (.inner entries) → e ∈ entries →
      e.2 ≠ m :=
    fun p entries e hp he heq => (h.target_ne_root hp he).2 (heq ▸ hm)
  have hothers : ∀ e ∈ before ++ (old, n) :: after, e ≠ (old, n) → e.2 ≠ n := by
    intro e he hne htarget
    exact hne (h.entry_unique hq hq he hmem htarget).2
  have hbeforeTarget : ∀ e ∈ before, e.2 ≠ n := by
    intro e he
    refine hothers e (by simp [he]) ?_
    rintro rfl
    rw [List.pairwise_append] at hpairs
    exact lt_irrefl _ (hpairs.2.2 _ he _ (by simp)).key_lt
  have hafterTarget : ∀ e ∈ after, e.2 ≠ n := by
    intro e he
    refine hothers e (by simp [he]) ?_
    rintro rfl
    rw [List.pairwise_append, List.pairwise_cons] at hpairs
    exact lt_irrefl _ (hpairs.2.1.1 _ he).key_lt
  have hspanSub : ∀ j, (linkShape s q n m k).span j ⊆ s.span j := by
    intro j y hy
    by_cases hj : j = n
    · subst hj
      simp only [linkShape, if_true] at hy
      exact hy.1
    · simpa [linkShape, hj] using hy
  refine h.replace hq ?_ (fun _ => rfl) (fun _ hj => hj.1) ?_ ?_ ?_ ?_ ?_
  · simp [linkShape, Ne.symm hnroot]
  · intro j hj
    have hjm : j ≠ m := by
      rintro rfl
      rcases hj with hj | hj
      · exact hmroot hj
      · exact hj.2 rfl
    simpa [linkShape, hjm] using h.top j (hj.imp_right And.left)
  · intro c hc
    obtain ⟨e, he, rfl⟩ := List.mem_map.mp hc
    simp only [List.mem_append, List.mem_cons] at he
    rcases he with he | rfl | rfl | he
    · exact h.closed q _ e hq (by simp [he])
    · rw [hn]
      rfl
    · exact h.free_some m hm
    · exact h.closed q _ e hq (by simp [he])
  · rintro j (hj | ⟨hj, hnot⟩)
    · simp only [Node.targets, List.map_append, List.map_cons, List.mem_append,
        List.mem_cons] at hj ⊢
      rcases hj with hj | hj | hj
      · exact .inl hj
      · exact .inr (.inl hj)
      · exact .inr (.inr (.inr hj))
    · have hjm : j = m := by
        by_contra hne
        exact hnot ⟨hj, hne⟩
      simp [Node.targets, hjm]
  · -- The node with the new entry.
    have hentry : ∀ e ∈ before ++ (old, n) :: after,
        EntryOk (linkShape s q n m k) q e := by
      intro e he
      obtain ⟨hkey, hl, hp, hs, hsub⟩ := hentries e he
      have hem := hfresh q _ e hq he
      refine ⟨by simpa [linkShape, Ne.symm hnq] using hkey, hl,
        by simpa [linkShape, hem] using hp, by simpa [linkShape, hem] using hs,
        fun y hy => ?_⟩
      simp only [linkShape, Ne.symm hnq, if_false]
      exact hsub (hspanSub _ hy)
    have hmono : ∀ e e', Separated s e e' →
        Separated (linkShape s q n m k) e e' := by
      intro e e' hsep
      obtain ⟨hlt, hbelow, habove⟩ := hsep
      exact ⟨hlt, fun y hy => hbelow y (hspanSub _ hy),
        fun y hy => habove y (hspanSub _ hy)⟩
    have hmspan : (linkShape s q n m k).span m = s.span m := by
      simp [linkShape, Ne.symm hnm]
    obtain ⟨-, hl, -, -, hsub⟩ := hentries _ hmem
    simp only at hl
    rw [List.pairwise_append, List.pairwise_cons] at hpairs
    obtain ⟨hpb, ⟨hna, hpa⟩, hba⟩ := hpairs
    refine ⟨by simp, fun e he => ?_, ?_, fun e he y hy => ?_⟩
    · simp only [List.mem_append, List.mem_cons] at he
      rcases he with he | rfl | rfl | he
      · exact hentry e (by simp [he])
      · exact hentry _ hmem
      · refine ⟨?_, by simpa [linkShape, hlevel] using hl, by simp [linkShape],
          by simp [linkShape], ?_⟩
        · simpa [linkShape, Ne.symm hnq] using hsub hk
        · rw [hmspan]
          simp only [linkShape, Ne.symm hnq, if_false]
          exact fun y hy => hsub (hspan y hy).2
      · exact hentry e (by simp [he])
    · rw [List.pairwise_append, List.pairwise_cons, List.pairwise_cons]
      refine ⟨hpb.imp (hmono _ _), ⟨fun e he => ?_, fun e he => ?_,
        hpa.imp (hmono _ _)⟩, fun e he e' he' => ?_⟩
      · rcases List.mem_cons.mp he with rfl | he
        · refine ⟨hold, fun y hy => ?_, fun y hy => ?_⟩
          · simp only [linkShape, if_true] at hy
            exact hy.2
          · rw [hmspan] at hy
            exact (hspan y hy).1
        · exact hmono _ _ (hna e he)
      · obtain ⟨-, hbelow, habove⟩ := hna e he
        refine ⟨hbelow k hk, fun y hy => ?_, fun y hy => ?_⟩
        · rw [hmspan] at hy
          exact hbelow y (hspan y hy).2
        · exact habove y (hspanSub _ hy)
      · simp only [List.mem_cons] at he'
        rcases he' with rfl | rfl | he'
        · exact hmono _ _ (hba e he _ (by simp))
        · obtain ⟨hlt, hbelow, habove⟩ := hba e he (old, n) (by simp)
          refine ⟨hlt.trans hold, fun y hy => ?_, fun y hy => ?_⟩
          · exact (hbelow y (hspanSub _ hy)).trans hold
          · rw [hmspan] at hy
            exact (hspan y hy).1
        · exact hmono _ _ (hba e he e' (by simp [he']))
    · refine hhead e ?_ y (hspanSub _ hy)
      cases before <;> simpa using he
  · intro j other hjq hj
    have hcm : ∀ c ∈ other.targets, c ≠ m := by
      intro c hc
      obtain ⟨entries, k', hp, he⟩ := target_of_mem hj hc
      exact hfresh j entries (k', c) hp he
    by_cases hjn : j = n
    · subst hjn
      rw [hn] at hj
      cases hj
      refine (h.ok j node hn).narrow hwithin rfl (by simp [linkShape])
        fun c hc => ?_
      obtain ⟨entries, k', hp, he⟩ := target_of_mem hn hc
      have hcj : c ≠ j := h.target_ne_self hp he
      simp [linkShape, hcj, hcm c hc]
    · refine (h.ok j other hj).mono rfl (by simp [linkShape, hjn]) fun c hc => ?_
      exact ⟨rfl, by simp [linkShape, hcm c hc], by simp [linkShape, hcm c hc],
        hspanSub c⟩

/-! ## A new root -/

def growShape (s : Shape κ) (pending : Option κ) (root m : Nat) (k : κ) :
    Shape κ where
  level j := if j = m then s.level root + 1 else s.level j
  span j :=
    if j = m then Set.univ
    else if j = root then {y | k ≤ y ∨ pending = some y} else s.span j
  separator j := if j = root then some k else s.separator j
  parent j := if j = m then none else if j = root then some m else s.parent j

/-- A node above the root, with one entry that leads to the old root. -/
theorem grow (h : Forest nodes root pending free s) {m : Nat} {k : κ}
    {node : Node κ} (hroot : nodes root = some node) (hm : nodes m = none)
    (hrootFree : root ∉ free)
    (hwithin : node.Within s {y | k ≤ y ∨ pending = some y}) :
    Forest (Function.update nodes m (some (.inner [(k, root)]))) m pending free
      (growShape s pending root m k) := by
  obtain ⟨hmroot, hmfree⟩ := h.ne_of_fresh hm
  have hrootm : root ≠ m := Ne.symm hmroot
  have hself : Function.update nodes m (some (.inner [(k, root)])) m =
      some (.inner [(k, root)]) := Function.update_self ..
  have hother : ∀ j, j ≠ m →
      Function.update nodes m (some (.inner [(k, root)])) j = nodes j :=
    fun j hj => Function.update_of_ne hj ..
  have hsome : ∀ j, (nodes j).isSome →
      (Function.update nodes m (some (.inner [(k, root)])) j).isSome := by
    intro j hj
    by_cases hjm : j = m
    · rw [hjm, hself]
      rfl
    · rwa [hother j hjm]
  constructor
  · rw [hself]
    rfl
  · simp [growShape]
  · exact fun j hj => hsome j (h.free_some j hj)
  · rintro j (rfl | hj)
    · simp [growShape]
    · have hjm : j ≠ m := fun heq => hmfree (heq ▸ hj)
      have hjroot : j ≠ root := fun heq => hrootFree (heq ▸ hj)
      simpa [growShape, hjm, hjroot] using h.top j (.inr hj)
  · intro j hj
    by_cases hjm : j = m
    · rw [hjm]
    · rw [hother j hjm] at hj
      have := h.level_le j hj
      simp only [growShape, hjm, if_false, if_true]
      omega
  · intro j hj hjm hjfree
    by_cases hjroot : j = root
    · subst hjroot
      exact ⟨m, _, k, hself, by simp⟩
    · rw [hother j hjm] at hj
      obtain ⟨p, entries, k', hp, he⟩ := h.linked j hj hjroot hjfree
      have hpm : p ≠ m := by
        rintro rfl
        rw [hm] at hp
        cases hp
      exact ⟨p, entries, k', by rw [hother p hpm, hp], he⟩
  · intro p entries e hp he
    by_cases hpm : p = m
    · subst hpm
      rw [hself] at hp
      cases hp
      obtain rfl : e = (k, root) := by simpa using he
      exact hsome root h.root_some
    · rw [hother p hpm] at hp
      exact hsome _ (h.closed p entries e hp he)
  · intro j other hj
    by_cases hjm : j = m
    · subst hjm
      rw [hself] at hj
      cases hj
      refine ⟨by simp, ?_, by simp, ?_⟩
      · intro e he
        obtain rfl : e = (k, root) := by simpa using he
        constructor <;> simp [growShape, hrootm]
      · intro e he y hy
        obtain rfl : (k, root) = e := by simpa using he
        simpa [growShape, hrootm] using hy
    · rw [hother j hjm] at hj
      have htarget : ∀ c ∈ other.targets, c ≠ m ∧ c ≠ root := by
        intro c hc
        obtain ⟨entries, k', hp, he⟩ := target_of_mem hj hc
        refine ⟨?_, (h.target_ne_root hp he).1⟩
        rintro rfl
        simpa [hm] using h.closed j entries _ hp he
      by_cases hjroot : j = root
      · subst hjroot
        rw [hroot] at hj
        cases hj
        refine (h.ok j node hroot).narrow hwithin (by simp [growShape, hjm]) ?_
          fun c hc => ?_
        · simp [growShape, hjm]
        · simp [growShape, (htarget c hc).1, (htarget c hc).2]
      · refine (h.ok j other hj).mono (by simp [growShape, hjm])
          (by simp [growShape, hjm, hjroot]) fun c hc => ?_
        simp [growShape, (htarget c hc).1, (htarget c hc).2]

end Forest
end
end Vsql.Foundation
