import Vsql.Btree.Splits

/-!
# Linking the parts of a page

After a page has been split, the first of its parts keeps the page number, and the pointer
to it gets the first key of the part when that has changed.  Then each part gets a pointer
after the one to the part before it, in whatever page that one is now.
-/

namespace Vsql.Btree

open Foundation StateError

variable {size : PageSize}

/-! ## Searching -/

theorem pointerIndex_split {key : Bytes} {objects : List PageObject} {o : PageObject}
    (h : objects[pointerIndex key objects]? = some o) :
    objects = objects.take (pointerIndex key objects) ++
        o :: objects.drop (pointerIndex key objects + 1) ∧
      (o.key ≤ key ∨ objects.take (pointerIndex key objects) = []) ∧
      ∀ a ∈ objects.drop (pointerIndex key objects + 1), key < a.key := by
  obtain ⟨hlt, ho⟩ := List.getElem?_eq_some_iff.mp h
  refine ⟨?_, ?_, fun a ha => ?_⟩
  · rw [← ho, List.getElem_cons_drop, List.take_append_drop]
  · by_cases hany : objects.reverse.findIdx (·.key ≤ key) < objects.reverse.length
    · have hle := @List.findIdx_getElem _ (fun o : PageObject => o.key ≤ key) _ hany
      rw [List.getElem_reverse] at hle
      rw [← ho]
      exact .inl (of_decide_eq_true hle)
    · rw [List.length_reverse] at hany
      have hzero : pointerIndex key objects = 0 := by
        rw [pointerIndex]
        omega
      exact .inr (by rw [hzero, List.take_zero])
  · obtain ⟨i, hi⟩ := List.mem_iff_getElem?.mp ha
    rw [List.getElem?_drop] at hi
    generalize hj : pointerIndex key objects + 1 + i = j at hi
    obtain ⟨hjlt, rfl⟩ := List.getElem?_eq_some_iff.mp hi
    have hbefore : objects.length - 1 - j < objects.reverse.findIdx (·.key ≤ key) := by
      unfold pointerIndex at hj
      omega
    have hnot := List.not_of_lt_findIdx hbefore
    rw [List.getElem_reverse, decide_eq_false_iff_not, not_le] at hnot
    have hback : objects.length - 1 - (objects.length - 1 - j) = j := by omega
    simpa only [hback] using hnot

theorem searchFrom_leads {key : Bytes} {fuel n : Nat} {t t' : Btree size}
    {result : List Nat × List Nat} (h : searchFrom key fuel n t = .ok result t') :
    ∃ m, Descends (nodes t) key n result.1 m := by
  induction fuel generalizing n result with
  | zero => cases h
  | succ fuel ih =>
      obtain ⟨page, u, hfetch, hrest⟩ := bind_eq_ok.mp h
      obtain ⟨hpage, rfl⟩ := fetchPage_eq_ok.mp hfetch
      have hnode := nodes_eq_some hpage
      cases hkind : page.kind with
      | leaf =>
          simp only [hkind, pure_eq_ok] at hrest
          obtain ⟨rfl, rfl⟩ := hrest
          rw [hkind] at hnode
          exact ⟨n, .leaf hnode⟩
      | notLeaf =>
          simp only [hkind] at hrest
          cases ho : page.objects[pointerIndex key page.objects]? with
          | none =>
              simp only [ho] at hrest
              cases hrest
          | some o =>
              simp only [ho] at hrest
              obtain ⟨⟨path, depthIterator⟩, v, hbelow, hlast⟩ := bind_eq_ok.mp hrest
              obtain ⟨rfl, rfl⟩ := pure_eq_ok.mp hlast
              obtain ⟨m, hleads⟩ := ih hbelow
              obtain ⟨hobjects, hfirst, hafter⟩ := pointerIndex_split ho
              rw [hkind, nodeOf, hobjects, List.map_append, List.map_cons] at hnode
              refine ⟨m, .inner hnode ⟨hfirst.imp_right fun hnil => ?_, fun a ha => ?_⟩ hleads⟩
              · rw [hnil, List.map_nil]
              · obtain ⟨o', ho', rfl⟩ := List.mem_map.mp ha
                exact hafter o' ho'

theorem searchPage_leads {key : Bytes} {t t' : Btree size} {result : List Nat × List Nat}
    (h : searchPage key t = .ok result t') :
    ∃ m, Descends (nodes t) key t.rootPage result.1 m := searchFrom_leads h

theorem pathAgain_chain {key : Bytes} {n : Nat} {t t' : Btree size} {path : List Nat}
    (h : pathAgain key n t = .ok path t') :
    t = t' ∧ Chain (nodes t) t.rootPage path n ∧ path.length ≠ 1 := by
  obtain ⟨⟨searchPath, depthIterator⟩, u, hsearch, hrest⟩ := bind_eq_ok.mp h
  obtain ⟨m, hleads⟩ := searchPage_leads hsearch
  obtain ⟨rfl, -⟩ := searchPage_ok hsearch
  cases hindex : searchPath.findIdx? (· = n) with
  | none =>
      simp only [hindex] at hrest
      cases hrest
  | some index =>
      cases index with
      | zero =>
          simp only [hindex] at hrest
          cases hrest
      | succ index =>
          simp only [hindex, pure_eq_ok] at hrest
          obtain ⟨rfl, rfl⟩ := hrest
          obtain ⟨hlt, heq, -⟩ := List.findIdx?_eq_some_iff_getElem.mp hindex
          have hget : searchPath[index + 1]? = some n := by
            rw [List.getElem?_eq_getElem hlt, of_decide_eq_true heq]
          refine ⟨rfl, hleads.chain.take hget, ?_⟩
          rw [List.length_take]
          omega

/-! ## Linking -/

section

variable {t t' : Btree size} {s s₁ s' : Shape Bytes} {pending : Option Bytes} {free : Set Nat}
variable {n m q level : Nat} {k : Bytes} {ks : List Bytes}

theorem Framed.of_link (h : Framed t t' (Forest.linkShape s q n m k) s' (s.level n + 1))
    (hlevel : s.level m = s.level n) : Framed t t' s s' (s.level n) where
  length := h.length
  levels := h.levels
  below := by
    intro j hj hlt
    have hjn : j ≠ n := by
      rintro rfl
      exact lt_irrefl _ hlt
    have hjm : j ≠ m := by
      rintro rfl
      omega
    obtain ⟨hpage, hspan, hseparator⟩ := h.below j hj (Nat.lt_succ_of_lt hlt)
    refine ⟨hpage, hspan.trans (Forest.linkShape_of_ne hjn), hseparator.trans ?_⟩
    simp [Forest.linkShape, hjm]

theorem Framed.of_rekey (h : Framed t t' (Forest.rekeyShape s n k) s' level)
    (hlevel : s.level n ≤ level) : Framed t t' s s' (s.level n) where
  length := h.length
  levels := h.levels
  below := by
    intro j hj hlt
    have hjn : j ≠ n := by
      rintro rfl
      exact lt_irrefl _ hlt
    obtain ⟨hpage, hspan, hseparator⟩ := h.below j hj (Nat.lt_of_lt_of_le hlt hlevel)
    refine ⟨hpage, hspan.trans ?_, hseparator.trans ?_⟩ <;> simp [Forest.rekeyShape, hjn]

/-- Siblings stay siblings when the pages above them are changed. -/
theorem siblings_of_framed (hforest : Forest (nodes t) t.rootPage pending free s)
    (h : Siblings (nodes t) s n m ks) (hframed : Framed t t' s₁ s' level)
    (hlevels : s₁.level = s.level) (hlevel : s.level n < level)
    (hstored : ∀ j, j = n ∨ m ≤ j ∧ j < m + ks.length → j < t.pages.length)
    (hsub : ∀ j, s₁.span j ⊆ s.span j)
    (hspan : ∀ j, m ≤ j ∧ j < m + ks.length → s₁.span j = s.span j)
    (hfirst : ∀ k ∈ ks.head?, ∀ y ∈ s.span n, k ≤ y → y ∈ s₁.span n) :
    Siblings (nodes t') s' n m ks := by
  have hlow : ∀ j, j = n ∨ m ≤ j ∧ j < m + ks.length → s₁.level j < level := by
    rintro j hj
    have hsame : s.level j = s.level n := by
      obtain rfl | hj := hj
      · rfl
      · exact h.level hj
    rwa [hlevels, hsame]
  refine h.mono (fun j hj => ?_) (fun j hj => ?_) (fun k hk y hy hle => ?_)
    fun j hj node hnode c hc => ?_
  · obtain ⟨hpage, -, -⟩ := hframed.below j (hstored j hj) (hlow j hj)
    refine ⟨by rw [nodes, nodes, hpage], ?_⟩
    rw [hframed.levels j (hstored j hj), hlevels]
  · obtain ⟨-, hspan', -⟩ := hframed.below j (hstored j (.inr hj)) (hlow j (.inr hj))
    exact hspan'.trans (hspan j hj)
  · obtain ⟨-, hspan', -⟩ := hframed.below n (hstored n (.inl rfl)) (hlow n (.inl rfl))
    rw [hspan']
    exact hfirst k hk y hy hle
  · obtain ⟨entries, key, hp, hmem⟩ := Forest.target_of_mem hnode hc
    have hlink : s.level c + 1 = s.level j := hforest.level_of_links ⟨entries, key, hp, hmem⟩
    have hc' : c < t.pages.length := nodes_isSome.mp (hforest.closed j entries _ hp hmem)
    have hlow' := hlow j hj
    obtain ⟨-, hspan', -⟩ := hframed.below c hc' (by rw [hlevels] at hlow' ⊢; omega)
    rw [hspan']
    exact hsub c

end

section

variable {split : List Nat → Page size → PageObject → PageKind → BtreeM size Unit}
variable {t t' : Btree size} {path : List Nat} {pending : Option Bytes} {free : Set Nat}
variable {s : Shape Bytes} {n m : Nat} {k old : Bytes} {ks : List Bytes}

theorem linkPages_spec (hsplit : SplitsPages split) {again : Bool} (h : Growing t pending free s)
    (hsiblings : Siblings (nodes t) s n m ks)
    (hfree : ∀ j, m ≤ j ∧ j < m + ks.length → j ∈ free) (hold : s.separator n = some old)
    (hsorted : (old :: ks).Pairwise (· < ·)) (hn : n < maxPages)
    (hptrs : ∀ e ∈ ks.zip (List.range' m ks.length), ObjectOk size .notLeaf (pointer e.1 e.2))
    (hpath : again = false → Chain (nodes t) t.rootPage path n ∧ path.length ≠ 1)
    (hrun : linkPages split path again (pointer k n)
      ((ks.zip (List.range' m ks.length)).map fun (k, j) => pointer k j) t = .ok () t') :
    ∃ s', Growing t' pending (free \ {j | m ≤ j ∧ j < m + ks.length}) s' ∧
      Framed t t' s s' (s.level n) := by
  induction ks generalizing t n m k old path again free s with
  | nil =>
      obtain ⟨-, rfl⟩ := pure_eq_ok.mp hrun
      have hempty : {j | m ≤ j ∧ j < m + ([] : List Bytes).length} = (∅ : Set Nat) := by
        ext j
        simp
      rw [hempty, Set.sdiff_empty]
      exact ⟨s, h, .refl t s _⟩
  | cons k' ks ih =>
      obtain ⟨hsibling, hrest⟩ := hsiblings
      rw [List.length_cons] at hfree
      have hm : m ∈ free := hfree m (by omega)
      have hmlt := Nat.lt_of_lt_of_le (h.stored_of_free hm) h.bound
      rw [List.length_cons, List.range'_succ, List.zip_cons_cons] at hptrs hrun
      rw [List.map_cons, linkPages] at hrun
      have hrest' := (List.pairwise_cons.mp hsorted).2
      have hfound : ∃ path', (Chain (nodes t) t.rootPage path' n ∧ path'.length ≠ 1) ∧
          ∃ u, addPagePointer split path' (pointer k' m) t = .ok () u ∧
            linkPages split path' true (pointer k' m)
              ((ks.zip (List.range' (m + 1) ks.length)).map fun (k, j) => pointer k j) u =
                .ok () t' := by
        cases again with
        | false =>
            obtain ⟨path', u, hpure, hrun⟩ := bind_eq_ok.mp hrun
            obtain ⟨rfl, rfl⟩ := pure_eq_ok.mp hpure
            obtain ⟨_, v, hadd, hrun⟩ := bind_eq_ok.mp hrun
            exact ⟨path, hpath rfl, v, hadd, hrun⟩
        | true =>
            obtain ⟨path', u, hagain, hrun⟩ := bind_eq_ok.mp hrun
            obtain ⟨rfl, hchain⟩ := pathAgain_chain hagain
            rw [target_pointer k hn] at hchain
            obtain ⟨_, v, hadd, hrun⟩ := bind_eq_ok.mp hrun
            exact ⟨path', hchain, v, hadd, hrun⟩
      obtain ⟨path', ⟨hchain, hlong⟩, u, hadd, hrun⟩ := hfound
      obtain ⟨q, s', hgrowing, hframed⟩ :=
        addPagePointer_spec hsplit h hchain hlong hm hsibling hold
        ((List.pairwise_cons.mp hsorted).1 k' List.mem_cons_self) (hptrs _ List.mem_cons_self) hadd
      have hframed' := hframed.of_link hsibling.level
      have hstored : ∀ j, j = m ∨ m + 1 ≤ j ∧ j < m + 1 + ks.length → j < t.pages.length :=
        fun j hj => h.stored_of_free (hfree j (by omega))
      have hlevel : s.level m < s.level n + 1 := by
        rw [hsibling.level]
        exact Nat.lt_succ_self _
      -- The part that has been linked is the one before those that are left.
      have hsiblings' : Siblings (nodes u) s' m (m + 1) ks := by
        have hneq : ∀ j, m ≤ j ∧ j < m + (ks.length + 1) → j ≠ n := by
          rintro j hj rfl
          obtain ⟨_, -, _, _, hnode, hmem⟩ := hchain.dropLast hlong
          exact (h.forest.target_ne_root hnode hmem).2 (hfree j hj)
        refine siblings_of_framed h.forest hrest hframed rfl hlevel hstored
          (fun j => Forest.linkShape_subset) (fun j hj => ?_) fun _ _ y hy _ => ?_
        · exact Forest.linkShape_of_ne (hneq j (by omega))
        · rwa [Forest.linkShape_of_ne (hneq m (by omega))]
      have hseparator : s'.separator m = some k' := by
        obtain ⟨-, -, hsep⟩ := hframed.below m (hstored m (.inl rfl)) hlevel
        rw [hsep]
        simp [Forest.linkShape]
      obtain ⟨s'', hgrowing', hframed''⟩ := ih hgrowing hsiblings'
        (fun j hj => ⟨hfree j (by omega), by rw [Set.mem_singleton_iff]; omega⟩) hseparator hrest'
        hmlt (fun e he => hptrs e (List.mem_cons_of_mem _ he)) (fun hfalse => by cases hfalse) hrun
      have hsame : s'.level m = s.level n := by
        rw [hframed'.levels m (hstored m (.inl rfl)), hsibling.level]
      rw [hsame] at hframed''
      refine ⟨s'', ?_, hframed'.trans hframed'' le_rfl⟩
      have hfree' : (free \ {m}) \ {j | m + 1 ≤ j ∧ j < m + 1 + ks.length} =
          free \ {j | m ≤ j ∧ j < m + (k' :: ks).length} := by
        ext j
        simp only [Set.mem_sdiff, Set.mem_singleton_iff, Set.mem_ofPred_eq, List.length_cons]
        constructor
        · rintro ⟨⟨hj, hjm⟩, hnot⟩
          exact ⟨hj, by omega⟩
        · rintro ⟨hj, hnot⟩
          exact ⟨⟨hj, by omega⟩, by omega⟩
      rwa [← hfree']

theorem pointerKey_eq {q : Nat} {page : Page size} {o : PageObject} (h : Growing t pending free s)
    (hpage : t.pages[q]? = some page) (hkind : page.kind = .notLeaf) (ho : o ∈ page.objects)
    (htarget : target o = n) : pointerKey page n = o.key := by
  obtain ⟨hnode, -⟩ := h.inner hpage hkind
  unfold pointerKey
  cases hfind : page.objects.find? fun o => target o = n with
  | none => simpa [htarget] using List.find?_eq_none.mp hfind o ho
  | some o' =>
      have htarget' : target o' = n := by simpa using List.find?_some hfind
      have hmem := List.mem_of_find?_eq_some hfind
      have hin : (o.key, target o) ∈ page.objects.map fun o => (o.key, target o) :=
        List.mem_map_of_mem ho
      have hin' : (o'.key, target o') ∈ page.objects.map fun o => (o.key, target o) :=
        List.mem_map_of_mem hmem
      have hsame := (h.forest.entry_unique hnode hnode hin hin' (htarget.trans htarget'.symm)).2
      exact (congrArg Prod.fst hsame).symm

variable {u v : Btree size} {kind : PageKind} {first : List PageObject}
variable {rest : List (List PageObject)} {s' : Shape Bytes}

/-- The pages above get pointers to the parts that have been stored. -/
theorem linkSplit_spec (hsplit : SplitsPages split) {insertedAt : Option Nat}
    (h : Stored t u n kind first rest pending free s s') (hn : n < t.pages.length)
    (hfreeStored : ∀ j ∈ free, j < t.pages.length)
    (hchain : Chain (nodes u) u.rootPage path n) (hlong : path.length ≠ 1)
    (hfront : insertedAt = some 0 → ∀ k, pending = some k → k = headKey first)
    (hlater : insertedAt ≠ some 0 → ∀ old, s'.separator n = some old →
      ∀ k ∈ rest.map headKey, old < k)
    (hrun : linkSplit split path insertedAt (groupPointers (first :: rest)
      (n :: List.range' t.pages.length rest.length)) u = .ok () v) :
    ∃ s'', Growing v pending free s'' ∧ Framed t v s s'' (s.level n) := by
  obtain ⟨q, hchainq, hlink⟩ := hchain.dropLast hlong
  obtain ⟨page, before, o, after, hpage, hkind, hobjects, htarget, hseparator⟩ :=
    h.growing.parent hlink
  have hlevel := h.growing.forest.level_of_links hlink
  have hnu : n < u.pages.length := by
    rw [h.length]
    omega
  have hheads := h.heads
  have hrange : ∀ j, t.pages.length ≤ j ∧ j < t.pages.length + (rest.map headKey).length →
      j ∈ free ∪ {j | t.pages.length ≤ j ∧ j < t.pages.length + rest.length} := by
    intro j hj
    rw [List.length_map] at hj
    exact .inr hj
  have hnode := h.growing.forest.ok n _ h.node
  have hfirst? := @first?_nodeOf kind first (h.nonempty first List.mem_cons_self)
  rw [h.pointers, List.map_cons, linkSplit] at hrun
  obtain ⟨leftPageNumber, w, hleft, hrun⟩ := bind_eq_ok.mp hrun
  obtain ⟨hlast, rfl⟩ := lastPage_eq_ok.mp hleft
  obtain rfl : n = leftPageNumber := Option.some.inj (hchain.getLast?.symm.trans hlast)
  -- The parts can be linked after the first one has its pointer.
  have hlinked : ∃ w s₂ old again, Growing w pending
      (free ∪ {j | t.pages.length ≤ j ∧ j < t.pages.length + rest.length}) s₂ ∧
      Framed u w s' s₂ (s'.level n) ∧
      Siblings (nodes w) s₂ n t.pages.length (rest.map headKey) ∧ s₂.separator n = some old ∧
      (old :: rest.map headKey).Pairwise (· < ·) ∧
      (again = false → Chain (nodes w) w.rootPage path n ∧ path.length ≠ 1) ∧
      linkPages split path again (pointer (headKey first) n) (((rest.map headKey).zip
        (List.range' t.pages.length (rest.map headKey).length)).map fun (k, j) => pointer k j) w =
          .ok () v := by
    split at hrun
    · next hzero =>
        obtain ⟨parentNumber, w, hparent, hrun⟩ := bind_eq_ok.mp hrun
        obtain ⟨hlastq, rfl⟩ := lastPage_eq_ok.mp hparent
        obtain rfl : q = parentNumber := Option.some.inj (hchainq.getLast?.symm.trans hlastq)
        obtain ⟨page', w, hfetch, hrun⟩ := bind_eq_ok.mp hrun
        obtain ⟨hpage', rfl⟩ := fetchPage_eq_ok.mp hfetch
        obtain rfl : page = page' := Option.some.inj (hpage.symm.trans hpage')
        obtain ⟨again, w, hreplace, hrun⟩ := bind_eq_ok.mp hrun
        rw [pointerKey_eq h.growing hpage hkind (by simp [hobjects]) htarget] at hreplace
        have hnlt : n < maxPages := Nat.lt_of_lt_of_le hnu h.growing.bound
        have hwithin : (nodeOf kind first).Within s' {y | headKey first ≤ y} := by
          refine (hnode.within_first hfirst?).subset ?_
          rintro y (hle | hpending)
          · exact hle
          · exact (hfront hzero y hpending).ge
        obtain ⟨s₂, hgrowing, hframed, hkept⟩ := replacePointer_spec hsplit h.growing hchainq hpage
          hkind hobjects htarget (target_pointer _ hnlt)
          (h.pointer_ok (e := (headKey first, n)) List.mem_cons_self) h.node
          (hnode.first_mem hfirst?) hwithin (hfront hzero) hreplace
        have hlt : s'.level n < s'.level q := by omega
        refine ⟨w, s₂, headKey first, again, hgrowing, hframed.of_rekey hlt.le,
          siblings_of_framed h.growing.forest h.siblings hframed rfl hlt (fun j hj => ?_)
            (fun j => Forest.rekeyShape_subset) (fun j hj => ?_) (fun k hk y hy hle => ?_),
          ?_, hheads, fun hfalse => ?_, hrun⟩
        · rw [List.length_map] at hj
          rw [h.length]
          omega
        · exact Forest.rekeyShape_of_ne (by omega)
        · have hlt := (List.pairwise_cons.mp hheads).1 k (List.mem_of_mem_head? hk)
          simp only [Forest.rekeyShape, if_true]
          exact ⟨hy, hlt.le.trans hle⟩
        · obtain ⟨-, -, hsep⟩ := hframed.below n hnu hlt
          rw [hsep]
          exact if_pos rfl
        · obtain ⟨hroot, hnodes⟩ := hkept hfalse
          have hpath : path = path.dropLast ++ [n] := by
            have hne := hchain.ne_nil
            have hlast' := hchain.getLast?
            rw [List.getLast?_eq_some_getLast hne] at hlast'
            rw [← Option.some.inj hlast', List.dropLast_append_getLast]
          refine ⟨?_, hlong⟩
          rw [hroot, hnodes, hpath]
          refine (h.growing.forest.chain_update hchainq _).snoc ⟨_, headKey first,
            Function.update_self .., ?_⟩
          have hptr : ((pointer (headKey first) n).key, target (pointer (headKey first) n)) =
              (headKey first, n) := Prod.ext rfl (target_pointer (headKey first) hnlt)
          rw [← hptr]
          exact List.mem_map_of_mem (List.mem_append_right _ List.mem_cons_self)
    · next hzero =>
        obtain ⟨again, w, hpure, hrun⟩ := bind_eq_ok.mp hrun
        obtain ⟨rfl, rfl⟩ := pure_eq_ok.mp hpure
        refine ⟨u, s', o.key, false, h.growing, .refl u s' _, h.siblings, hseparator, ?_,
          fun _ => ⟨hchain, hlong⟩, hrun⟩
        rw [List.pairwise_cons] at hheads ⊢
        exact ⟨hlater hzero o.key hseparator, hheads.2⟩
  obtain ⟨w, s₂, old, again, hgrowing, hframed, hsiblings, hold, hsorted, hpath, hrun⟩ := hlinked
  obtain ⟨s₃, hgrowing', hframed'⟩ := linkPages_spec hsplit hgrowing hsiblings hrange hold hsorted
    (Nat.lt_of_lt_of_le hnu h.growing.bound) (fun e he => h.pointer_ok (List.mem_cons_of_mem _ he))
    hpath hrun
  rw [List.length_map, Stored.kept_free hfreeStored] at hgrowing'
  rw [hframed.levels n hnu] at hframed'
  have hlevel' : s'.level n = s.level n := (h.kept n hn).1
  rw [hlevel'] at hframed hframed'
  exact ⟨s₃, hgrowing', h.framed.trans (hframed.trans hframed' le_rfl) le_rfl⟩

end

/-! ## Splitting a page -/

section

variable {t t' u : Btree size} {path : List Nat} {n : Nat} {kind : PageKind}
variable {objects first : List PageObject} {rest : List (List PageObject)}
variable {pending : Option Bytes} {free : Set Nat} {s s' : Shape Bytes} {obj : PageObject}

theorem Splitting.free_stored (h : Splitting t path n kind objects pending free s) {j : Nat}
    (hj : j ∈ free) : j < t.pages.length := by
  by_contra hge
  have hsome := h.forest.free_some j hj
  rw [h.fresh (not_lt.mp hge)] at hsome
  cases hsome

theorem Splitting.chain_stored (h : Splitting t path n kind objects pending free s)
    (hstored : Stored t u n kind first rest pending free s s') :
    Chain (nodes u) u.rootPage path n := by
  rw [hstored.root]
  refine h.chain.mono fun p c hp hlink => ?_
  obtain ⟨entries, key, hnode, hmem⟩ := hlink
  have hpn : p ≠ n := by
    rintro rfl
    exact lt_irrefl _ (h.forest.level_of_chain h.chain hp)
  rw [Function.update_of_ne hpn] at hnode
  have hlt : p < t.pages.length := nodes_isSome.mp (by rw [hnode]; rfl)
  refine ⟨entries, key, ?_, hmem⟩
  rw [nodes, hstored.others p hlt hpn]
  exact hnode

/-- If a page that is not a leaf is split, the first part has two objects. -/
theorem splitObjects_two (hstrict : Strict objects)
    (hhalf : ∀ o ∈ objects, o.length ≤ maxAllowedInPage size / 2)
    (h : splitObjects size objects = first :: rest) (hrest : rest ≠ []) :
    ∃ a b tail, first = a :: b :: tail := by
  cases objects with
  | nil =>
      cases h
      exact absurd rfl hrest
  | cons a objects =>
      cases objects with
      | nil =>
          cases h
          exact absurd rfl hrest
      | cons b objects =>
          change splitObjectsInto size [a] (0 + a.length) (b :: objects) = _ at h
          have ha := hhalf a (by simp)
          have hb := hhalf b (by simp)
          rw [splitObjectsInto_cons, if_pos (by omega)] at h
          have hnext : ∀ object ∈ objects.head?, b.key ≠ object.key := by
            intro o ho
            have hpairs := (List.pairwise_cons.mp hstrict).2
            exact ((List.pairwise_cons.mp hpairs).1 o (List.mem_of_mem_head? ho)).ne
          obtain ⟨tail, groups, heq⟩ := @splitObjectsInto_group size b [a] (0 + a.length + b.length)
            objects fun _ => hnext
          rw [heq] at h
          cases h
          exact ⟨a, b, tail, rfl⟩

theorem headKey_insertObject_of_front (h : insertPosition obj objects = some 0) :
    headKey (insertObject obj objects) = obj.key := by
  unfold insertObject
  rw [h]
  rfl

/-- A new object that is not put at the front comes after the first key. -/
theorem headKey_insertObject_lt (h : insertPosition obj objects ≠ some 0) (hne : objects ≠ []) :
    headKey (insertObject obj objects) < obj.key := by
  obtain ⟨o, rest, rfl⟩ := List.exists_cons_of_ne_nil hne
  have hlt : o.key < obj.key := by
    by_contra hle
    exact h (insertPosition_eq_zero.mpr ⟨o, rest, rfl, not_lt.mp hle⟩)
  rw [insertObject_eq, List.orderedInsert_cons, if_neg (not_le.mpr hlt)]
  exact hlt

end

theorem splitPage_spec {fuel : Nat} {t t' : Btree size} {path : List Nat} {n : Nat}
    {kind : PageKind} {page : Page size} {obj : PageObject} {pending : Option Bytes}
    {free : Set Nat} {s : Shape Bytes}
    (h : Splitting t path n kind (insertObject obj page.objects) pending free s)
    (hpending : kind = .leaf ∨ insertPosition obj page.objects = some 0 →
      ∀ k, pending = some k → k = obj.key)
    (hrun : splitPage fuel path page obj kind t = .ok () t') :
    ∃ s', Growing t' pending free s' ∧ Framed t t' s s' (s.level n) := by
  induction fuel generalizing t t' path n kind page obj pending free s with
  | zero => cases hrun
  | succ fuel ih =>
      have hsplit : SplitsPages (@splitPage size fuel) := fun h hfront hrun =>
        ih h (fun hor => hfront (hor.resolve_left (by simp))) hrun
      have hne : insertObject obj page.objects ≠ [] := by
        intro hnil
        have hperm := insertObject_perm obj page.objects
        rw [hnil] at hperm
        cases hperm.symm.eq_nil
      obtain ⟨leftPageNumber, u, hleft, hrun⟩ := bind_eq_ok.mp hrun
      obtain ⟨hlast, rfl⟩ := lastPage_eq_ok.mp hleft
      obtain rfl : n = leftPageNumber := Option.some.inj (h.chain.getLast?.symm.trans hlast)
      obtain ⟨numbers, u, hstore, hrun⟩ := bind_eq_ok.mp hrun
      obtain ⟨first, rest, s', hgroups, rfl, hstored⟩ := h.stored_of_storeGroups hne hstore
      have hflatten := @splitObjects_flatten size (insertObject obj page.objects)
      have hfirstNe := hstored.nonempty first List.mem_cons_self
      rw [hgroups] at hrun hflatten
      have hhead : headKey first = headKey (insertObject obj page.objects) := by
        obtain ⟨a, tail, rfl⟩ := List.exists_cons_of_ne_nil hfirstNe
        rw [← hflatten]
        rfl
      split at hrun
      · next hone =>
          have hroot : n = t.rootPage := by
            have hchain := h.chain
            cases hchain with
            | single => rfl
            | cons _ hbelow =>
                rw [List.length_cons, Nat.add_eq_right, List.length_eq_zero_iff] at hone
                exact absurd hone hbelow.ne_nil
          subst hroot
          exact hstored.newRoot h.stored (fun j hj => h.free_stored hj) hrun
      · next hlong =>
          refine linkSplit_spec hsplit hstored h.stored (fun j hj => h.free_stored hj)
            (h.chain_stored hstored) hlong (fun hzero k hk => ?_)
              (fun hzero old hold k hk => ?_) hrun
          · rw [hhead, headKey_insertObject_of_front hzero]
            exact hpending (.inr hzero) k hk
          · obtain ⟨q, -, hlink⟩ := (h.chain_stored hstored).dropLast hlong
            have hle := fun y hy => @Forest.separator_le _ _ _ _ _ _ _ y _ _ _
              hstored.growing.forest hlink hold hy
            have hnode := hstored.growing.forest.ok n _ hstored.node
            cases kind with
            | leaf =>
                have hlt := (List.pairwise_cons.mp hstored.heads).1 k hk
                have hpage : page.objects ≠ [] := by
                  intro hnil
                  rw [hnil] at hgroups
                  cases hgroups
                  cases hk
                have hbefore := headKey_insertObject_lt hzero hpage
                rw [← hhead] at hbefore
                obtain hle | hsome := hle _ (hnode.first_mem (first?_nodeOf hfirstNe))
                · exact lt_of_le_of_lt hle hlt
                · exact absurd (hpending (.inl rfl) _ hsome) hbefore.ne
            | notLeaf =>
                obtain ⟨g, hg, rfl⟩ := List.mem_map.mp hk
                obtain ⟨a, b, tail, rfl⟩ := splitObjects_two (h.strict rfl)
                  (fun o ho => (h.objects_ok o ho).half) hgroups (List.ne_nil_of_mem hg)
                obtain ⟨c, g, rfl⟩ := List.exists_cons_of_ne_nil
                  (hstored.nonempty g (List.mem_cons_of_mem _ hg))
                have hbc : b.key < c.key := (List.pairwise_cons.mp hstored.separated).1 _ hg b
                  (by simp) c List.mem_cons_self
                obtain ⟨-, hentries, hpairs, -⟩ := hnode
                have hab := ((List.pairwise_cons.mp hpairs).1 (b.key, target b) (by simp)).key_lt
                -- At most one of the two keys is pending.
                obtain hle' | hsome := hle _ (hentries (b.key, target b) (by simp)).key_mem
                · exact lt_of_le_of_lt hle' hbc
                · obtain hle' | hsome' := hle _ (hentries (a.key, target a) (by simp)).key_mem
                  · exact lt_of_le_of_lt hle' (hab.trans hbc)
                  · rw [hsome] at hsome'
                    exact absurd (Option.some.inj hsome').symm hab.ne

end Vsql.Btree
