import Vsql.Btree.Linked

/-!
# The lower bounds of the pages above a new key

A search takes the first pointer of a page for a key that is before all of them, so that
after such a key has been added the first pointers on the way to its leaf are no lower
bounds.  They get the first key of the leaf, from the root down.
-/

namespace Vsql.Btree

open Foundation StateError

variable {size : PageSize}

/-- Only the pointers on the path may be above the new key. -/
structure Unsettled (t : Btree size) (path : List Nat) (m : Nat) (keys : List Bytes) (k : Bytes)
    (s : Shape Bytes) : Prop where
  growing : Growing t (some k) ∅ s
  chain : Chain (nodes t) t.rootPage path m
  leaf : nodes t m = some (.leaf keys)
  mem : k ∈ keys

namespace Unsettled

variable {t t' : Btree size} {path above : List Nat} {m q : Nat} {keys : List Bytes}
variable {k minKey : Bytes} {s s' : Shape Bytes}

theorem span (h : Unsettled t path m keys k s) : ∀ y ∈ keys, y ∈ s.span m :=
  (h.growing.forest.ok m _ h.leaf).2.2

theorem min_le (h : Unsettled t path m keys k s) (hmin : keys.head? = some minKey) :
    minKey ≤ k := by
  obtain ⟨rest, rfl⟩ : ∃ rest, keys = minKey :: rest := List.head?_eq_some_iff.mp hmin
  obtain ⟨-, hsorted, -⟩ := h.growing.forest.ok m _ h.leaf
  obtain rfl | hmem := List.mem_cons.mp h.mem
  · exact le_refl _
  · exact (List.pairwise_cons.mp hsorted).1 k hmem

theorem leaf_level (h : Unsettled t path m keys k s) : s.level m = 0 :=
  (h.growing.forest.ok m _ h.leaf).1

/-- The key fits into a pointer. -/
theorem pointer_ok (h : Unsettled t path m keys k s) {value : Bytes} (hvalue : value.length = 4) :
    ObjectOk size .notLeaf (PageObject.new k 0 0 value) := by
  obtain ⟨page, hpage, -, rfl⟩ := nodes_eq_leaf h.leaf
  obtain ⟨o, ho, rfl⟩ := List.mem_map.mp h.mem
  obtain ⟨hne, -, hpointer, -⟩ := (h.growing.page_ok hpage).objects o ho
  refine ⟨hne, ?_, hpointer, fun _ => ⟨rfl, rfl, hvalue⟩⟩
  rw [PageObject.length, PageObject.new, hvalue]
  exact hpointer

/-- Nothing is pending when the first pointers on the path are lower bounds. -/
theorem settle (h : Unsettled t (above ++ [m]) m keys k s)
    (habove : ∀ p ∈ above, ∀ entries e, nodes t p = some (.inner entries) →
      entries.head? = some e → e.1 ≤ k) : Growing t none ∅ s := by
  have hforest : Forest (nodes t) t.rootPage none ∅ s := by
    refine h.growing.forest.settle fun p entries e hp he hk => ?_
    have hentry := h.growing.forest.entry hp (List.mem_of_mem_head? he)
    obtain ⟨top, path', htop, hchain'⟩ := h.growing.forest.exists_chain
      (show (nodes t p).isSome by rw [hp]; rfl)
    obtain rfl : top = t.rootPage := htop.resolve_right (Set.notMem_empty top)
    have hmem := h.growing.forest.mem_of_span h.chain h.leaf (h.span k h.mem) hchain'
      (hentry.span hk)
    obtain hmem | hmem := List.mem_append.mp hmem
    · exact habove p hmem entries e hp he
    · rw [List.mem_singleton.mp hmem, h.leaf] at hp
      cases hp
  exact ⟨hforest, Set.notMem_empty _, h.growing.pages, h.growing.bound⟩

/-- Where the first key of the leaf is below a pointer, it is the new key, and the path goes
through that pointer. -/
theorem raise {before below : List Nat} {d : Nat} {e : Bytes × Nat} {entries : List (Bytes × Nat)}
    (h : Unsettled t (before ++ q :: d :: below) m keys k s) (hmin : keys.head? = some minKey)
    (hq : nodes t q = some (.inner (e :: entries))) (hlt : minKey < e.1) :
    minKey = k ∧ e.2 = d ∧ k ∈ s.span d ∧ ∀ y ∈ s.span d, k ≤ y := by
  obtain ⟨hlink, hbelow⟩ := h.chain.through.2.next
  have hspan := h.growing.forest.span_of_chain hbelow
  have hk : k ∈ s.span d := hspan (h.span k h.mem)
  have hminKey : minKey ∈ s.span d := hspan (h.span minKey (List.mem_of_mem_head? hmin))
  obtain ⟨entries', key, hq', hmem⟩ := hlink
  rw [hq] at hq'
  cases hq'
  obtain ⟨-, -, hpairs, hhead⟩ := h.growing.forest.ok q _ hq
  obtain rfl | hmem := List.mem_cons.mp hmem
  · have hbound := hhead _ rfl
    obtain hle | hsome := hbound minKey hminKey
    · exact absurd hlt (not_lt.mpr hle)
    · obtain rfl : k = minKey := Option.some.inj hsome
      refine ⟨rfl, rfl, hk, fun y hy => ?_⟩
      obtain hle | hsome := hbound y hy
      · exact hlt.le.trans hle
      · exact (Option.some.inj hsome).le
  · have hsep := (List.pairwise_cons.mp hpairs).1 _ hmem
    exact absurd (hsep.key_lt.le.trans (hsep.above minKey hminKey)) (not_le.mpr hlt)

/-- A search for the new key ends at its leaf. -/
theorem search {t' : Btree size} {result : List Nat × List Nat} (hgrowing : Growing t (some k) ∅ s)
    (hleaf : nodes t m = some (.leaf keys)) (hmem : k ∈ keys)
    (hsearch : searchPage k t = .ok result t') : Unsettled t result.1 m keys k s := by
  obtain ⟨m', hleads⟩ := searchPage_leads hsearch
  obtain ⟨top, path', htop, hchain⟩ := hgrowing.forest.exists_chain
    (show (nodes t m).isSome by rw [hleaf]; rfl)
  obtain rfl : top = t.rootPage := htop.resolve_right (Set.notMem_empty top)
  obtain ⟨-, -, hspan⟩ := hgrowing.forest.ok m _ hleaf
  obtain rfl := hgrowing.forest.leads_unique hchain hleaf (hspan k hmem) hleads
  exact ⟨hgrowing, hleads.chain, hleaf, hmem⟩

/-- The first pointer of a page on the path gets the new key. -/
theorem replace {path : List Nat} {d : Nat} {page : Page size} {tHead : PageObject} {b : Bool}
    (h : Unsettled t (above ++ q :: d :: path) m keys k s) (hmin : keys.head? = some minKey)
    (hpage : t.pages[q]? = some page) (hhead : page.objects.head? = some tHead)
    (hlt : minKey < tHead.key)
    (hrun : replacePointer (splitPage maxPages) (above ++ [q]) page tHead.key
      (PageObject.new minKey 0 0 tHead.value) t = .ok b t') :
    minKey = k ∧ ∃ s', Growing t' (some k) ∅ s' ∧ nodes t' m = some (.leaf keys) ∧
      (b = false → Unsettled t' (above ++ q :: d :: path) m keys k s' ∧
        (∀ p, p ≠ q → nodes t' p = nodes t p) ∧
        ∀ entries e, nodes t' q = some (.inner entries) → entries.head? = some e → e.1 ≤ k) := by
  obtain ⟨objects, hobjects⟩ : ∃ objects, page.objects = tHead :: objects :=
    List.head?_eq_some_iff.mp hhead
  obtain ⟨hupper, hlower⟩ := h.chain.through
  obtain ⟨hlink, hbelow⟩ := hlower.next
  have hkind : page.kind = .notLeaf := by
    obtain ⟨entries, key, hq, -⟩ := hlink
    obtain ⟨page', hpage', hkind, -⟩ := nodes_eq_inner hq
    rw [hpage] at hpage'
    rwa [Option.some.inj hpage']
  obtain ⟨hnode, -⟩ := h.growing.inner hpage hkind
  rw [hobjects, List.map_cons] at hnode
  obtain ⟨rfl, rfl, hk, hbound⟩ := h.raise hmin hnode hlt
  refine ⟨rfl, ?_⟩
  obtain ⟨node, hd⟩ := Option.isSome_iff_exists.mp
    (h.growing.forest.closed q _ (tHead.key, target tHead) hnode List.mem_cons_self)
  have hwithin : node.Within s {y | minKey ≤ y} := by
    have hok := h.growing.forest.ok _ _ hd
    cases node with
    | leaf keys' => exact fun y hy => hbound y (hok.2.2 y hy)
    | inner entries =>
        intro e he
        have hentry := hok.2.1 e he
        exact ⟨hbound e.1 hentry.key_mem, fun y hy => hbound y (hentry.span hy)⟩
  have htHead := (h.growing.page_ok hpage).objects tHead (by simp [hobjects])
  rw [hkind] at htHead
  obtain ⟨s', hgrowing, hframed, hkept⟩ := replacePointer_spec
    (fun h hfront hrun => splitPage_spec h (fun hor => hfront (hor.resolve_left (by simp))) hrun)
    h.growing hupper hpage hkind (show page.objects = [] ++ tHead :: objects from hobjects) rfl
    (show target (PageObject.new minKey 0 0 tHead.value) = target tHead from rfl)
    (h.pointer_ok (htHead.pointer rfl).2.2) hd hk hwithin
    (fun y hy => (Option.some.inj hy).symm) hrun
  have hm : m < t.pages.length := nodes_isSome.mp (by rw [h.leaf]; rfl)
  have hlevelq : s.level m < s.level q := by
    have hlevel := h.growing.forest.level_of_links hlink
    rw [h.leaf_level]
    omega
  have hleaf : nodes t' m = some (.leaf keys) := by
    obtain ⟨hsame, -, -⟩ := hframed.below m hm hlevelq
    rw [nodes, hsame]
    exact h.leaf
  refine ⟨s', hgrowing, hleaf, fun hfalse => ?_⟩
  obtain ⟨hroot, hnodes⟩ := hkept hfalse
  have hothers : ∀ p, p ≠ q → nodes t' p = nodes t p :=
    fun p hp => by rw [hnodes, Function.update_of_ne hp]
  have hself : nodes t' q = some (.inner ((minKey, target tHead) ::
      objects.map fun o => (o.key, target o))) := by
    rw [hnodes, Function.update_self]
    rfl
  refine ⟨⟨hgrowing, ?_, hleaf, h.mem⟩, hothers, fun entries e he hfirst => ?_⟩
  · rw [hroot]
    refine h.chain.mono fun p c _ hlink' => ?_
    obtain ⟨entries, key, hp', hmem⟩ := hlink'
    by_cases hp : p = q
    · rw [hp] at hp' ⊢
      rw [hnode] at hp'
      cases hp'
      obtain heq | hmem := List.mem_cons.mp hmem
      · have hc : c = target tHead := congrArg Prod.snd heq
        exact ⟨_, minKey, hself, by rw [hc]; exact List.mem_cons_self⟩
      · exact ⟨_, key, hself, List.mem_cons_of_mem _ hmem⟩
    · exact ⟨entries, key, by rw [hothers p hp, hp'], hmem⟩
  · rw [hself] at he
    cases he
    cases hfirst
    exact le_refl _

end Unsettled

variable {m : Nat} {keys : List Bytes} {k minKey : Bytes}

theorem fixParentLoop_spec {again : List Nat → BtreeM size Unit}
    (hagain : ∀ {path t t' s}, Unsettled t path m keys k s → again path t = .ok () t' →
      ∃ s', Growing t' none ∅ s') (hmin : keys.head? = some minKey) {above below : List Nat}
    {t t' : Btree size} {s : Shape Bytes} (h : Unsettled t (above ++ (below ++ [m])) m keys k s)
    (habove : ∀ p ∈ above, ∀ entries e, nodes t p = some (.inner entries) →
      entries.head? = some e → e.1 ≤ k)
    (hrun : fixParentLoop again minKey above below t = .ok () t') :
    ∃ s', Growing t' none ∅ s' := by
  induction below generalizing above t s with
  | nil =>
      obtain ⟨-, rfl⟩ := pure_eq_ok.mp hrun
      exact ⟨s, h.settle habove⟩
  | cons q below ih =>
      obtain ⟨d, path, hpath⟩ := List.exists_cons_of_ne_nil (show below ++ [m] ≠ [] by simp)
      rw [List.cons_append, hpath] at h
      have hsnoc : above ++ q :: d :: path = (above ++ [q]) ++ (below ++ [m]) := by
        rw [hpath]
        simp
      obtain ⟨page, u, hfetch, hrun⟩ := bind_eq_ok.mp hrun
      obtain ⟨hpage, rfl⟩ := fetchPage_eq_ok.mp hfetch
      obtain ⟨tHead, u, hobject, hrun⟩ := bind_eq_ok.mp hrun
      obtain ⟨hhead, rfl⟩ := headObject_eq_ok.mp hobject
      split at hrun
      · next hlt =>
          obtain ⟨wasSplit, u, hreplace, hrun⟩ := bind_eq_ok.mp hrun
          obtain ⟨rfl, s', hgrowing, hleaf, hkept⟩ := h.replace hmin hpage hhead hlt hreplace
          split at hrun
          · obtain ⟨⟨newPath, depthIterator⟩, v, hsearch, hrun⟩ := bind_eq_ok.mp hrun
            have hunsettled := Unsettled.search hgrowing hleaf h.mem hsearch
            obtain ⟨rfl, -⟩ := searchPage_ok hsearch
            exact hagain hunsettled hrun
          · next hfalse =>
              obtain ⟨hunsettled, hothers, hfirst⟩ := hkept (by simpa using hfalse)
              rw [hsnoc] at hunsettled
              refine ih hunsettled (fun p hp => ?_) hrun
              by_cases hpq : p = q
              · rw [hpq]
                exact hfirst
              · obtain hp | hp := List.mem_append.mp hp
                · rw [hothers p hpq]
                  exact habove p hp
                · exact absurd (List.mem_singleton.mp hp) hpq
      · next hle =>
          have hmink := h.min_le hmin
          rw [hsnoc] at h
          refine ih h (fun p hp => ?_) hrun
          obtain hp | hp := List.mem_append.mp hp
          · exact habove p hp
          · rw [List.mem_singleton.mp hp]
            intro entries e hq he
            obtain ⟨page', hpage', -, rfl⟩ := nodes_eq_inner hq
            obtain rfl : page = page' := Option.some.inj (hpage.symm.trans hpage')
            rw [List.head?_map, hhead] at he
            cases he
            exact (not_lt.mp hle).trans hmink

theorem fixParentPages_spec {path : List Nat} {t t' : Btree size} {s : Shape Bytes}
    (h : Unsettled t path m keys k s) (hrun : fixParentPages path t = .ok () t') :
    ∃ s', Growing t' none ∅ s' := by
  unfold fixParentPages at hrun
  generalize maxPages = fuel at hrun
  induction fuel generalizing path t t' s with
  | zero => cases hrun
  | succ fuel ih =>
      obtain ⟨path, rfl⟩ : ∃ above, path = above ++ [m] := by
        have hne := h.chain.ne_nil
        have hlast := h.chain.getLast?
        rw [List.getLast?_eq_some_getLast hne] at hlast
        exact ⟨path.dropLast, by rw [← Option.some.inj hlast, List.dropLast_append_getLast]⟩
      rw [fixParentPagesFrom] at hrun
      split at hrun
      · next hshort =>
          obtain ⟨-, rfl⟩ := pure_eq_ok.mp hrun
          rw [List.length_append, List.length_singleton] at hshort
          obtain rfl : path = [] := List.length_eq_zero_iff.mp (by omega)
          exact ⟨s, h.settle (fun p hp => by cases hp)⟩
      · obtain ⟨leafNumber, u, hnumber, hrun⟩ := bind_eq_ok.mp hrun
        obtain ⟨hlast, rfl⟩ := lastPage_eq_ok.mp hnumber
        rw [List.getLast?_concat] at hlast
        obtain rfl : m = leafNumber := Option.some.inj hlast
        obtain ⟨leafPage, u, hfetch, hrun⟩ := bind_eq_ok.mp hrun
        obtain ⟨hpage, rfl⟩ := fetchPage_eq_ok.mp hfetch
        obtain ⟨leafHead, u, hobject, hrun⟩ := bind_eq_ok.mp hrun
        obtain ⟨hhead, rfl⟩ := headObject_eq_ok.mp hobject
        rw [List.dropLast_concat] at hrun
        obtain ⟨page, hpage', -, hkeys⟩ := nodes_eq_leaf h.leaf
        obtain rfl : leafPage = page := Option.some.inj (hpage.symm.trans hpage')
        have hmin : keys.head? = some leafHead.key := by
          rw [← hkeys, List.head?_map, hhead]
          rfl
        have habove : ∀ p ∈ ([] : List Nat), ∀ entries e, nodes t p = some (.inner entries) →
            entries.head? = some e → e.1 ≤ k := fun p hp => by cases hp
        exact fixParentLoop_spec (fun h hrun => ih h hrun) hmin h habove hrun

end Vsql.Btree
