import Vsql.Btree.Runs
import Vsql.Walk.Fused

/-!
# What an iterator gives

The leaves of a tree that changes have built are in the order of their keys.  The iterator
of a range starts at the leaf of the lower bound: everything before it is below the range,
and what it gives until it ends is what is stored in the range, in order.
-/

namespace Vsql.Btree

open Foundation StateError

variable {size : PageSize}

/-! ## Objects in order -/

/-- Objects in order are given by the versions of each key. -/
theorem eq_of_versions {first second : List PageObject} (hfirst : Ordered first)
    (hsecond : Ordered second) (h : ∀ key, versionsOf key first = versionsOf key second) :
    first = second := by
  induction first generalizing second with
  | nil =>
      cases second with
      | nil => rfl
      | cons b second =>
          have hb := h b.key
          rw [versionsOf_cons_self rfl] at hb
          cases hb
  | cons a first ih =>
      have ha := h a.key
      rw [versionsOf_cons_self rfl] at ha
      cases second with
      | nil => cases ha
      | cons b second =>
          have hbmem : b ∈ a :: first := by
            have hb := h b.key
            rw [versionsOf_cons_self (o := b) rfl] at hb
            exact List.mem_of_mem_filter (hb ▸ List.mem_cons_self)
          have hamem : a ∈ b :: second := List.mem_of_mem_filter (ha ▸ List.mem_cons_self)
          have hle : a.key ≤ b.key := by
            obtain rfl | hbmem := List.mem_cons.mp hbmem
            · exact le_refl _
            · exact (List.pairwise_cons.mp hfirst).1 b hbmem
          have hge : b.key ≤ a.key := by
            obtain rfl | hamem := List.mem_cons.mp hamem
            · exact le_refl _
            · exact (List.pairwise_cons.mp hsecond).1 a hamem
          have hkey : b.key = a.key := le_antisymm hge hle
          rw [versionsOf_cons_self hkey] at ha
          obtain ⟨rfl, -⟩ := List.cons_eq_cons.mp ha
          rw [ih (List.pairwise_cons.mp hfirst).2 (List.pairwise_cons.mp hsecond).2 fun key => ?_]
          have hkey' := h key
          by_cases hk : a.key = key
          · rw [versionsOf_cons_self hk, versionsOf_cons_self hk] at hkey'
            exact (List.cons_eq_cons.mp hkey').2
          · have hskip : ∀ objects, versionsOf key (a :: objects) = versionsOf key objects :=
              fun _ => List.filter_cons_of_neg (by simpa using hk)
            rwa [hskip, hskip] at hkey'

/-- Sorting keeps the order of the versions of a key. -/
theorem versionsOf_sortObjects (key : Bytes) (objects : List PageObject) :
    versionsOf key (sortObjects objects) = versionsOf key objects := by
  have : Std.Total fun a b : PageObject => a.key ≤ b.key := ⟨fun a b => le_total a.key b.key⟩
  have : IsTrans PageObject fun a b => a.key ≤ b.key := ⟨fun _ _ _ => le_trans⟩
  have hversions : ∀ o ∈ versionsOf key objects, o.key = key := fun o ho => by
    simpa using (List.mem_filter.mp ho).2
  have hordered : (versionsOf key objects).Pairwise fun a b => a.key ≤ b.key :=
    List.pairwise_of_forall_mem_list fun a ha b hb => by rw [hversions a ha, hversions b hb]
  have hsub : (versionsOf key objects).Sublist (sortObjects objects) :=
    List.sublist_insertionSort hordered List.filter_sublist
  have hfilter := hsub.filter fun o => o.key = key
  rw [List.filter_eq_self.mpr fun o ho => decide_eq_true (hversions o ho)] at hfilter
  exact (hfilter.eq_of_length ((sortObjects_perm objects).filter _).length_eq.symm).symm

/-! ## The leaves of a tree -/

section

variable {t : Btree size} {s : Shape Bytes}

/-- What is below a page is in its span, and in order. -/
theorem Growing.leavesBelow (h : Growing t none ∅ s) {height n : Nat} (hn : n < t.pages.length)
    (hlevel : s.level n < height) : IsTree t height n ∧
      (∀ o ∈ (leavesBelow t height n).flatten, o.key ∈ s.span n) ∧
      Ordered (leavesBelow t height n).flatten := by
  induction height generalizing n with
  | zero => omega
  | succ height ih =>
      obtain ⟨page, hpage⟩ : ∃ page, t.pages[n]? = some page := ⟨_, List.getElem?_eq_getElem hn⟩
      cases hkind : page.kind with
      | leaf =>
          have hnode := nodes_eq_some hpage
          rw [hkind] at hnode
          obtain ⟨-, -, hspan⟩ := h.forest.ok n _ hnode
          rw [leavesBelow_leaf hpage hkind, List.flatten_cons, List.flatten_nil, List.append_nil]
          exact ⟨⟨page, hpage, fun hinner => by rw [hkind] at hinner; cases hinner⟩,
            fun o ho => hspan o.key (List.mem_map_of_mem ho), (h.page_ok hpage).ordered⟩
      | notLeaf =>
          obtain ⟨hnode, -⟩ := h.inner hpage hkind
          obtain ⟨hne, hentries, hpairs, -⟩ := h.forest.ok n _ hnode
          rw [List.pairwise_map] at hpairs
          have hbelow : ∀ o ∈ page.objects, s.span (target o) ⊆ s.span n ∧
              IsTree t height (target o) ∧
              (∀ o' ∈ (Btree.leavesBelow t height (target o)).flatten, o'.key ∈ s.span (target o)) ∧
              Ordered (Btree.leavesBelow t height (target o)).flatten := by
            intro o ho
            have hmem : (o.key, target o) ∈ page.objects.map fun o => (o.key, target o) :=
              List.mem_map_of_mem ho
            have hentry := hentries _ hmem
            refine ⟨hentry.span, ih (nodes_isSome.mp (h.forest.closed n _ _ hnode hmem)) ?_⟩
            have hlevel' := hentry.level
            simp only at hlevel'
            omega
          rw [leavesBelow_notLeaf hpage hkind]
          refine ⟨⟨page, hpage, fun _ => ⟨by simpa using hne, fun o ho => (hbelow o ho).2.1⟩⟩,
            fun o ho => ?_, ?_⟩
          · obtain ⟨leaf, hleaf, ho⟩ := List.mem_flatten.mp ho
            obtain ⟨ptr, hptr, hleaf⟩ := List.mem_flatMap.mp hleaf
            obtain ⟨hspan, -, hkeys, -⟩ := hbelow ptr hptr
            exact hspan (hkeys o (List.mem_flatten_of_mem hleaf ho))
          · rw [Ordered, List.flatMap, List.flatten_flatten, List.map_map, List.pairwise_flatten,
              List.pairwise_map, List.forall_mem_map]
            refine ⟨fun o ho => (hbelow o ho).2.2.2, hpairs.imp_of_mem fun {a b} ha hb hsep => ?_⟩
            intro o ho o' ho'
            have hlt := hsep.below o.key ((hbelow a ha).2.2.1 o ho)
            exact hlt.le.trans (hsep.above o'.key ((hbelow b hb).2.2.1 o' ho'))

open PageIterator (Above) in
/-- A search leaves everything below its key before the leaf, and everything above it after. -/
theorem Growing.exists_searchFrom (h : Growing t none ∅ s) (key : Bytes) {height m fuel : Nat}
    {path depth : List Nat} {rest : List (List PageObject)}
    (habove : Above t height path depth m rest) (hm : m < t.pages.length)
    (hlevel : s.level m < height) (hfuel : height ≤ fuel)
    (hrest : ∀ o ∈ rest.flatten, key < o.key) :
    ∃ pages positions height' m' path' rest' page before,
      searchFrom key fuel m t = .ok (pages, positions) t ∧ pages.reverse ++ path = m' :: path' ∧
      Above t (height' + 1) path' (positions.reverse ++ depth) m' rest' ∧
      t.pages[m']? = some page ∧ page.kind = .leaf ∧
      Btree.leavesBelow t height m ++ rest = before ++ page.objects :: rest' ∧
      (∀ o ∈ before.flatten, o.key < key) ∧ ∀ o ∈ rest'.flatten, key < o.key := by
  induction height generalizing m fuel path depth rest with
  | zero => omega
  | succ height ih =>
      obtain ⟨fuel, rfl⟩ : ∃ k, fuel = k + 1 := ⟨fuel - 1, by omega⟩
      obtain ⟨page, hpage⟩ : ∃ page, t.pages[m]? = some page := ⟨_, List.getElem?_eq_getElem hm⟩
      have hfetch : fetchPage m t = .ok page t := fetchPage_eq_ok.mpr ⟨hpage, rfl⟩
      unfold searchFrom
      cases hkind : page.kind with
      | leaf =>
          refine ⟨[m], [], height, m, path, rest, page, [], ?_, rfl, habove, hpage, hkind, ?_,
            by simp, hrest⟩
          · rw [bind_eq_ok]
            exact ⟨page, t, hfetch, by simp only [hkind]; rfl⟩
          · rw [leavesBelow_leaf hpage hkind]
            rfl
      | notLeaf =>
          obtain ⟨htree, -⟩ := h.leavesBelow hm hlevel
          obtain ⟨page', hpage', hinner⟩ := htree
          obtain rfl : page = page' := Option.some.inj (hpage.symm.trans hpage')
          obtain ⟨hne, htrees⟩ := hinner hkind
          have hindex := @PageIterator.pointerIndex_lt key _ hne
          have hpointer := List.getElem?_eq_getElem hindex
          generalize page.objects[pointerIndex key page.objects] = o at hpointer
          have habove' := Above.page hpage hkind htrees hpointer habove
          -- What is below the other pointers is on its side of the key.
          obtain ⟨hnode, -⟩ := h.inner hpage hkind
          obtain ⟨-, -, hpairs, -⟩ := h.forest.ok m _ hnode
          rw [List.pairwise_map] at hpairs
          have hbelow : ∀ ptr ∈ page.objects, target ptr < t.pages.length ∧
              s.level (target ptr) < height ∧
              ∀ leaf ∈ Btree.leavesBelow t height (target ptr), ∀ o ∈ leaf,
                o.key ∈ s.span (target ptr) := by
            intro ptr hptr
            obtain ⟨hstored, hlevel'⟩ := h.below hpage hkind hptr
            have hlow : s.level (target ptr) < height := by omega
            refine ⟨hstored, hlow, fun leaf hleaf o ho => ?_⟩
            exact (h.leavesBelow hstored hlow).2.1 o (List.mem_flatten_of_mem hleaf ho)
          obtain ⟨hobjects, hfirst, hafter⟩ := pointerIndex_split hpointer
          generalize hbefore : page.objects.take (pointerIndex key page.objects) = before
            at hobjects hfirst
          generalize hdrop : page.objects.drop (pointerIndex key page.objects + 1) = after
            at hobjects hafter habove'
          rw [hobjects, List.pairwise_append, List.pairwise_cons] at hpairs
          obtain ⟨-, ⟨hseparatedAfter, -⟩, hseparatedBefore⟩ := hpairs
          have ho : o ∈ page.objects := by simp [hobjects]
          have hrest' : ∀ o' ∈ ((after.flatMap fun o => Btree.leavesBelow t height (target o)) ++
              rest).flatten, key < o'.key := by
            intro o' ho'
            rw [List.flatten_append, List.mem_append] at ho'
            obtain ho' | ho' := ho'
            · obtain ⟨leaf, hleaf, ho'⟩ := List.mem_flatten.mp ho'
              obtain ⟨ptr, hptr, hleaf⟩ := List.mem_flatMap.mp hleaf
              have hspan := (hbelow ptr (by simp [hobjects, hptr])).2.2 leaf hleaf o' ho'
              exact (hafter ptr hptr).trans_le ((hseparatedAfter ptr hptr).above o'.key hspan)
            · exact hrest o' ho'
          obtain ⟨pages, positions, height', m', path', rest', leaf, low, hsearch, hpages, hup,
            hleaf, hleafKind, hleaves, hlow, hhigh⟩ := ih habove' (hbelow o ho).1 (hbelow o ho).2.1
              (show height ≤ fuel by omega) hrest'
          refine ⟨m :: pages, pointerIndex key page.objects :: positions, height', m', path', rest',
            leaf, (before.flatMap fun o => Btree.leavesBelow t height (target o)) ++ low,
            ?_, ?_, ?_,
            hleaf, hleafKind, ?_, ?_, hhigh⟩
          · rw [bind_eq_ok]
            refine ⟨page, t, hfetch, ?_⟩
            simp only [hkind, hpointer]
            rw [bind_eq_ok]
            exact ⟨(pages, positions), t, hsearch, rfl⟩
          · rw [List.reverse_cons, List.append_assoc, List.singleton_append, hpages]
          · rwa [List.reverse_cons, List.append_assoc, List.singleton_append]
          · rw [leavesBelow_notLeaf hpage hkind, hobjects, List.flatMap_append, List.flatMap_cons,
              List.append_assoc, List.append_assoc, hleaves, List.append_assoc]
          · intro o' ho'
            rw [List.flatten_append, List.mem_append] at ho'
            obtain ho' | ho' := ho'
            · obtain ⟨leaf, hleaf, ho'⟩ := List.mem_flatten.mp ho'
              obtain ⟨ptr, hptr, hleaf⟩ := List.mem_flatMap.mp hleaf
              have hspan := (hbelow ptr (by simp [hobjects, hptr])).2.2 leaf hleaf o' ho'
              have hlt := (hseparatedBefore ptr hptr o (by simp)).below o'.key hspan
              exact hlt.trans_le (hfirst.resolve_right (List.ne_nil_of_mem hptr))
            · exact hlow o' ho'

theorem Growing.level_root (h : Growing t none ∅ s) : s.level t.rootPage < maxPages := by
  have hlevel := h.forest.level_lt (fun n hn => nodes_isSome.mp hn) []
  exact Nat.lt_of_lt_of_le hlevel h.bound

theorem Growing.root_stored (h : Growing t none ∅ s) : t.rootPage < t.pages.length :=
  nodes_isSome.mp h.forest.root_some

/-- The leaves have all the objects of the tree, in order. -/
theorem Growing.leaves_eq (h : Growing t none ∅ s) :
    t.leaves.flatten = sortObjects (leafObjects t) := by
  obtain ⟨-, -, hordered⟩ := h.leavesBelow h.root_stored h.level_root
  refine eq_of_versions hordered (sortObjects_sorted _) fun key => ?_
  obtain ⟨pages, positions, height, m, path, rest, page, before, hsearch, hpages, -, hpage, hkind,
    hleaves, hbefore, hafter⟩ := h.exists_searchFrom key .root h.root_stored h.level_root le_rfl
      (by simp)
  have hlast : pages.getLast? = some m := by
    rw [List.append_nil] at hpages
    rw [← List.head?_reverse, hpages, List.head?_cons]
  rw [List.append_nil] at hleaves
  have hnone : ∀ objects : List PageObject, (∀ o ∈ objects, o.key ≠ key) →
      versionsOf key objects = [] :=
    fun objects hne => List.filter_eq_nil_iff.mpr fun o ho => by simpa using hne o ho
  rw [versionsOf_sortObjects, versionsOf_leafObjects hpage hkind (h.leaf_unique hsearch hlast),
    Btree.leaves, hleaves, List.flatten_append, List.flatten_cons, versionsOf_append,
    versionsOf_append, hnone _ fun o ho => (hbefore o ho).ne, hnone _ fun o ho => (hafter o ho).ne',
    List.nil_append, List.append_nil]

end

/-! ## The iterator -/

/-- What is stored in a range, in order. -/
def objectsIn (t : Btree size) (min max : Bytes) : List PageObject :=
  (sortObjects (leafObjects t)).filter fun o => min ≤ o.key ∧ o.key ≤ max

theorem drop_countP {objects : List PageObject} (h : Ordered objects) (min : Bytes) :
    objects.drop (objects.countP (·.key < min)) = objects.filter (min ≤ ·.key) := by
  induction objects with
  | nil => rfl
  | cons o objects ih =>
      obtain ⟨hfirst, hrest⟩ := List.pairwise_cons.mp h
      by_cases hlt : o.key < min
      · rw [List.countP_cons_of_pos (by simpa using hlt), List.drop_succ_cons, ih hrest,
          List.filter_cons_of_neg (by simpa using hlt)]
      · have hall : ∀ o' ∈ o :: objects, min ≤ o'.key := by
          rw [List.forall_mem_cons]
          exact ⟨not_lt.mp hlt, fun o' ho' => (not_lt.mp hlt).trans (hfirst o' ho')⟩
        rw [List.countP_eq_zero.mpr fun o' ho' => by simpa using hall o' ho', List.drop_zero,
          List.filter_eq_self.mpr fun o' ho' => by simpa using hall o' ho']

theorem Growing.from_min {t : Btree size} {s : Shape Bytes} {page : Page size} {min : Bytes}
    {before rest : List (List PageObject)} (h : Growing t none ∅ s)
    (hordered : Ordered page.objects)
    (hleaves : t.leaves = before ++ page.objects :: rest)
    (hbefore : ∀ o ∈ before.flatten, o.key < min) (hafter : ∀ o ∈ rest.flatten, min < o.key) :
    page.objects.drop (page.objects.countP (·.key < min)) ++ rest.flatten =
      (sortObjects (leafObjects t)).filter (min ≤ ·.key) := by
  rw [← h.leaves_eq, hleaves, List.flatten_append, List.flatten_cons, List.filter_append,
    List.filter_append, drop_countP hordered]
  have hnil : before.flatten.filter (min ≤ ·.key) = [] :=
    List.filter_eq_nil_iff.mpr fun o ho => by simpa using hbefore o ho
  have hself : rest.flatten.filter (min ≤ ·.key) = rest.flatten :=
    List.filter_eq_self.mpr fun o ho => by simpa using (hafter o ho).le
  rw [hnil, hself, List.nil_append]

end Vsql.Btree

namespace Vsql.PageIterator

open Foundation Btree StateError

variable {size : PageSize} {t : Btree size} {s : Shape Bytes}

/-- The iterator starts with everything that is not below its range. -/
theorem exists_start_growing (h : Growing t none ∅ s) (min max : Bytes) :
    ∃ iter rest, start t (new min max) = .ok () iter ∧ iter.max = max ∧ AtLeaf t iter rest ∧
      iter.remaining rest = (sortObjects (leafObjects t)).filter (min ≤ ·.key) := by
  obtain ⟨pages, positions, height, m, path, rest, page, before, hsearch, hpages, habove, hpage,
    hkind, hleaves, hbefore, hafter⟩ := h.exists_searchFrom min .root h.root_stored h.level_root
      le_rfl (by simp)
  rw [List.append_nil] at hpages habove hleaves
  have hsearch : searchPage min t = .ok (pages, positions) t := hsearch
  have hnew : (new min max).path = [] := rfl
  have hordered : Ordered page.objects := (h.page_ok hpage).ordered
  rw [start, if_pos hnew]
  simp only [new, hsearch, hpages, List.head?_cons, Option.bind_some, hpage]
  refine ⟨_, rest, rfl, rfl, ⟨⟨height, m, _, path, _, rfl, rfl, habove, page, hpage, hkind, rfl⟩,
    [], List.nil_suffix, rfl⟩, ?_⟩
  exact h.from_min hordered hleaves hbefore hafter

theorem padded_eq_take {results : List (Option PageObject)} {n : Nat} (h : n ≤ results.length) :
    padded results n = results.take n := by
  induction n generalizing results with
  | zero => rw [padded, List.take_zero]
  | succ n ih =>
      cases results with
      | nil => simp at h
      | cons result results =>
          rw [padded, List.headD_cons, List.tail_cons, List.take_succ_cons,
            ih (Nat.le_of_succ_le_succ h)]

/-- What the calls of a new iterator give. -/
theorem calls_new {min max : Bytes} {iter : PageIterator} {results : List (Option PageObject)}
    (hstart : start t (new min max) = .ok () iter) (hready : Ready t iter results)
    (hpages : t.pages ≠ []) : (∀ n, ∃ iter', Calls t (new min max) (padded results n) iter') ∧
      ∀ results' iter', Calls t (new min max) results' iter' →
        results' = padded results results'.length := by
  have hnew := next_new hstart hready.path_ne hpages
  refine ⟨fun n => ?_, fun results' iter' hcalls => ?_⟩
  · cases n with
    | zero => exact ⟨_, .nil _⟩
    | succ n =>
        obtain ⟨fuel, iter1, hnext, hready1⟩ := exists_next hpages hready
        obtain ⟨iter', hcalls⟩ := hready1.exists_calls hpages n
        exact ⟨iter', .cons ((hnew fuel).trans hnext) hcalls⟩
  · cases hcalls with
    | nil => rfl
    | @cons _ _ _ fuel result results hnext hcalls =>
        rw [hnew] at hnext
        exact hready.eq_padded hpages (.cons hnext hcalls)

theorem filter_le_split {objects : List PageObject} (h : Ordered objects) (max : Bytes) :
    ∃ above, objects = objects.filter (·.key ≤ max) ++ above ∧ ∀ o ∈ above, max < o.key := by
  induction objects with
  | nil => exact ⟨[], rfl, by simp⟩
  | cons o objects ih =>
      obtain ⟨hfirst, hrest⟩ := List.pairwise_cons.mp h
      by_cases hle : o.key ≤ max
      · obtain ⟨above, heq, habove⟩ := ih hrest
        refine ⟨above, ?_, habove⟩
        rw [List.filter_cons_of_pos (by simpa using hle), List.cons_append, ← heq]
      · have hall : ∀ o' ∈ o :: objects, max < o'.key := by
          rw [List.forall_mem_cons]
          exact ⟨not_le.mp hle, fun o' ho' => (not_le.mp hle).trans_le (hfirst o' ho')⟩
        refine ⟨o :: objects, ?_, hall⟩
        rw [List.filter_eq_nil_iff.mpr fun o' ho' => by simpa using hall o' ho', List.nil_append]

/-- The calls of an iterator give what is stored in its range, in order, and then nothing. -/
theorem built_calls (h : Built t) (min max : Bytes) :
    (∃ iter, Calls t (new min max) ((objectsIn t min max).map (given t max) ++ [none]) iter) ∧
      ∀ results iter, Calls t (new min max) results iter →
        results.length ≤ (objectsIn t min max).length + 1 →
        results <+: (objectsIn t min max).map (given t max) ++ [none] := by
  by_cases hpages : t.pages = []
  · have hnil : objectsIn t min max = [] := by
      rw [objectsIn, leafObjects, hpages]
      rfl
    rw [hnil]
    refine ⟨⟨_, .cons (next_of_empty hpages 0 _) (.nil _)⟩, fun results iter hcalls hlength => ?_⟩
    cases hcalls with
    | nil => exact List.nil_prefix
    | cons hnext hmore =>
        rw [next_of_empty hpages] at hnext
        cases hnext
        obtain rfl := List.length_eq_zero_iff.mp (show _ = 0 by simpa using hlength)
        exact List.prefix_refl _
  · obtain ⟨s, hgrowing⟩ := h.searchTree.resolve_left hpages
    obtain ⟨iter, rest, hstart, rfl, hleaf, hremaining⟩ := exists_start_growing hgrowing min max
    have hready := Ready.leaf hleaf
    obtain ⟨hexists, hunique⟩ := calls_new hstart hready hpages
    -- The results are those for the range, and then nothing.
    have hordered : Ordered ((sortObjects (leafObjects t)).filter (min ≤ ·.key)) :=
      List.Pairwise.filter _ (sortObjects_sorted _)
    obtain ⟨above, hsplit, habove⟩ := filter_le_split hordered iter.max
    rw [List.filter_filter] at hsplit
    have hrange : (sortObjects (leafObjects t)).filter (fun o => decide (o.key ≤ iter.max) &&
        decide (min ≤ o.key)) = objectsIn t min iter.max := by
      refine List.filter_congr fun o _ => ?_
      simp [Bool.and_comm]
    rw [hrange] at hsplit
    obtain ⟨tail, htail⟩ : ∃ tail, (iter.remaining rest).map (given t iter.max) ++
        none :: t.repeated.map (given t iter.max) =
          (objectsIn t min iter.max).map (given t iter.max) ++ none :: tail := by
      rw [hremaining, hsplit, List.map_append, List.append_assoc]
      cases above with
      | nil => exact ⟨_, rfl⟩
      | cons o above =>
          have hnone : given t iter.max o = none := if_pos (habove o List.mem_cons_self)
          exact ⟨_, by rw [List.map_cons, hnone, List.cons_append]⟩
    rw [htail] at hexists hunique
    have hcut : ∀ n, n ≤ (objectsIn t min iter.max).length + 1 →
        padded ((objectsIn t min iter.max).map (given t iter.max) ++ none :: tail) n =
          ((objectsIn t min iter.max).map (given t iter.max) ++ [none]).take n := by
      intro n hn
      rw [padded_eq_take (by simp; omega)]
      have happend : (objectsIn t min iter.max).map (given t iter.max) ++ none :: tail =
          ((objectsIn t min iter.max).map (given t iter.max) ++ [none]) ++ tail := by simp
      rw [happend, List.take_append_of_le_length (by simpa using hn)]
    refine ⟨?_, fun results iter' hcalls hlength => ?_⟩
    · obtain ⟨iter', hcalls⟩ := hexists ((objectsIn t min iter.max).length + 1)
      rw [hcut _ le_rfl, List.take_of_length_le (by simp)] at hcalls
      exact ⟨iter', hcalls⟩
    · rw [hunique results iter' hcalls, hcut _ hlength]
      exact List.take_prefix _ _

theorem built_calls_smallTree :
    (∃ iter, Calls smallTree (new [2] [9])
        [some (keyObject 2 3 26), some (keyObject 3 3 26), none] iter) ∧
      ∀ results iter, Calls smallTree (new [2] [9]) results iter → results.length ≤ 3 →
        results <+: [some (keyObject 2 3 26), some (keyObject 3 3 26), none] := by
  have hcalls := built_calls built_smallTree [2] [9]
  have hobjects : (objectsIn smallTree [2] [9]).map (given smallTree [9]) =
      [some (keyObject 2 3 26), some (keyObject 3 3 26)] := by decide +kernel
  have hlength : (objectsIn smallTree [2] [9]).length = 2 := by decide +kernel
  rwa [hobjects, hlength] at hcalls

end Vsql.PageIterator

namespace Vsql.Btree

open Foundation StateError PageIterator

variable {size : PageSize} {t : Btree size} {s : Shape Bytes}

/-! ## Reading a range at once -/

theorem flatten_flatMap {α : Type} (objects : List PageObject) (f : PageObject → List (List α)) :
    (objects.flatMap f).flatten = objects.flatMap fun o => (f o).flatten := by
  rw [List.flatMap, List.flatten_flatten, List.map_map]
  rfl

theorem concat_ok {α : Type} (objects : List PageObject) (f : PageObject → List α) :
    Scan.concat (objects.map fun o => ⟨f o, none⟩) = ⟨objects.flatMap f, none⟩ := by
  induction objects with
  | nil => rfl
  | cons o objects ih =>
      rw [List.map_cons, Scan.concat, List.foldr_cons, ← Scan.concat, ih, List.flatMap_cons]
      rfl

theorem Growing.objectsBelow (h : Growing t none ∅ s) {fuel height n : Nat}
    (hn : n < t.pages.length) (hfuel : s.level n < fuel) (hheight : s.level n < height) :
    objectsBelow t fuel n = ⟨(Btree.leavesBelow t height n).flatten, none⟩ := by
  induction fuel generalizing height n with
  | zero => omega
  | succ fuel ih =>
      obtain ⟨height, rfl⟩ : ∃ k, height = k + 1 := ⟨height - 1, by omega⟩
      obtain ⟨page, hpage⟩ : ∃ page, t.pages[n]? = some page := ⟨_, List.getElem?_eq_getElem hn⟩
      rw [Btree.objectsBelow, hpage]
      cases hkind : page.kind with
      | leaf =>
          rw [leavesBelow_leaf hpage hkind, List.flatten_cons, List.flatten_nil, List.append_nil]
          simp only [hkind]
      | notLeaf =>
          have hbelow : ∀ o ∈ page.objects, Btree.objectsBelow t fuel (target o) =
              ⟨(Btree.leavesBelow t height (target o)).flatten, none⟩ := by
            intro o ho
            obtain ⟨hstored, hlevel⟩ := h.below hpage hkind ho
            exact ih hstored (by omega) (by omega)
          rw [leavesBelow_notLeaf hpage hkind, flatten_flatMap]
          simp only [hkind]
          rw [List.map_congr_left hbelow, concat_ok]

/-- What comes after a leaf, from the positions above it. -/
theorem Growing.objectsAfter (h : Growing t none ∅ s) {height m : Nat} {path depth : List Nat}
    {rest : List (List PageObject)} (habove : Above t height path depth m rest) :
    objectsAfter t (path.zip depth) = ⟨rest.flatten, none⟩ ∧ m < t.pages.length ∧
      s.level m < height := by
  induction habove with
  | root => exact ⟨rfl, h.root_stored, h.level_root⟩
  | @page height n i o path depth page rest hpage hkind _ hpointer hup ih =>
      obtain ⟨hafter, hn, hlevel⟩ := ih
      have hbelow : ∀ o ∈ page.objects,
          target o < t.pages.length ∧ s.level (target o) < height := by
        intro o ho
        obtain ⟨hstored, hlevel'⟩ := h.below hpage hkind ho
        exact ⟨hstored, by omega⟩
      have hheight := hup.height_le
      refine ⟨?_, hbelow o (List.mem_of_getElem? hpointer)⟩
      have hdrop : (page.objects.drop (i + 1)).map
          (fun o => Btree.objectsBelow t maxPages (target o)) =
            (page.objects.drop (i + 1)).map fun o =>
            ⟨(Btree.leavesBelow t height (target o)).flatten, none⟩ := by
        refine List.map_congr_left fun o ho => ?_
        obtain ⟨hstored, hlow⟩ := hbelow o (List.mem_of_mem_drop ho)
        exact h.objectsBelow hstored (by omega) hlow
      rw [Btree.objectsAfter] at hafter ⊢
      rw [List.zip_cons_cons, List.map_cons, Scan.concat, List.foldr_cons, ← Scan.concat, hafter]
      simp only [hpage]
      rw [hdrop, concat_ok, List.flatten_append, flatten_flatMap]
      rfl

theorem takeWhile_none {p : PageObject → Bool} (objects : List PageObject) :
    (⟨objects, none⟩ : Scan PageObject).takeWhile p = ⟨objects.takeWhile p, none⟩ := by
  unfold Scan.takeWhile
  split
  · next hall =>
      rw [List.takeWhile_eq_self_iff.mpr (by simpa using hall)]
  · rfl

theorem takeWhile_le {objects : List PageObject} (h : Ordered objects) (max : Bytes) :
    objects.takeWhile (·.key ≤ max) = objects.filter (·.key ≤ max) := by
  induction objects with
  | nil => rfl
  | cons o objects ih =>
      obtain ⟨hfirst, hrest⟩ := List.pairwise_cons.mp h
      by_cases hle : o.key ≤ max
      · rw [List.takeWhile_cons_of_pos (by simpa using hle), ih hrest,
          List.filter_cons_of_pos (by simpa using hle)]
      · have hnone : ∀ o' ∈ o :: objects, ¬o'.key ≤ max := by
          rw [List.forall_mem_cons]
          exact ⟨hle, fun o' ho' hle' => hle ((hfirst o' ho').trans hle')⟩
        rw [List.takeWhile_cons_of_neg (by simpa using hle),
          List.filter_eq_nil_iff.mpr fun o' ho' => by simpa using hnone o' ho']

theorem length_above {height m : Nat} {path depth : List Nat} {rest : List (List PageObject)}
    (h : Above t height path depth m rest) : path.length = depth.length := by
  induction h with
  | root => rfl
  | page _ _ _ _ _ ih => rw [List.length_cons, List.length_cons, ih]

/-- Reading a range gives what is stored in it, in order, and no error. -/
theorem Built.rangeObjects_eq (h : Built t) (min max : Bytes) :
    t.rangeObjects min max = (⟨objectsIn t min max, none⟩ : Scan PageObject).map fun o =>
      if o.isBlobRef then eval (readBlob o) t else .ok o := by
  by_cases hpages : t.pages = []
  · rw [rangeObjects, if_pos hpages, objectsIn, leafObjects, hpages]
    rfl
  · obtain ⟨s, hgrowing⟩ := h.searchTree.resolve_left hpages
    obtain ⟨pages, positions, height, m, path, rest, page, before, hsearch, hpath, habove, hpage,
      hkind, hleaves, hbefore, hafter⟩ := hgrowing.exists_searchFrom min .root hgrowing.root_stored
        hgrowing.level_root le_rfl (by simp)
    rw [List.append_nil] at hpath habove hleaves
    have hpages' : pages = path.reverse ++ [m] := by
      rw [← List.reverse_reverse pages, hpath, List.reverse_cons]
    have hlength := length_above habove
    rw [List.length_reverse] at hlength
    have hzip : (pages.zip positions).reverse = path.zip positions.reverse := by
      have hcut := @List.zip_append _ _ path.reverse [m] positions []
        (by rw [List.length_reverse, hlength])
      rw [List.append_nil, List.zip_nil_right, List.append_nil] at hcut
      rw [hpages', hcut, List.zip, List.reverse_zipWith (by rw [List.length_reverse, hlength]),
        List.reverse_reverse]
    obtain ⟨hrest, -⟩ := hgrowing.objectsAfter habove
    have hordered := (hgrowing.page_ok hpage).ordered
    have hsearch : searchPage min t = .ok (pages, positions) t := hsearch
    have hlast : (pages.getLast?.bind fun n => t.pages[n]?) = some page := by
      rw [hpages', List.getLast?_concat, Option.bind_some, hpage]
    have hsorted : Ordered ((sortObjects (leafObjects t)).filter (min ≤ ·.key)) :=
      List.Pairwise.filter _ (sortObjects_sorted _)
    rw [rangeObjects, if_neg hpages, hsearch]
    simp only [hlast]
    rw [hzip, hrest]
    have happend : Scan.append ⟨page.objects.drop (page.objects.countP (·.key < min)), none⟩
        ⟨rest.flatten, none⟩ = ⟨(sortObjects (leafObjects t)).filter (min ≤ ·.key), none⟩ := by
      rw [← hgrowing.from_min hordered hleaves hbefore hafter]
      rfl
    rw [happend, takeWhile_none, takeWhile_le hsorted, List.filter_filter, objectsIn]
    congr 2
    refine List.filter_congr fun o _ => ?_
    simp [Bool.and_comm]

end Vsql.Btree
