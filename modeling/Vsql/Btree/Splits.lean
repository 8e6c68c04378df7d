import Vsql.Btree.Nodes

/-!
# Splitting a page of the B-tree

While a page is split there are pages that no pointer leads to: the parts of the page
after the first one, until the page above has a pointer to them.  That page may have to be
split in turn, so that what holds of a tree is stated with the pages that are not linked
yet, and a split changes nothing below the page that is split.
-/

namespace Vsql.Btree

open Foundation StateError

variable {size : PageSize}

/-! ## Trees with pages that are not linked -/

/-- Two objects fit into a page, and so do two pointers to pages that start with them. -/
structure ObjectOk (size : PageSize) (kind : PageKind) (o : PageObject) : Prop where
  key_ne : o.key ≠ []
  half : o.length ≤ maxAllowedInPage size / 2
  pointer_half : pageObjectPrefixLength + o.key.length + 4 ≤ maxAllowedInPage size / 2
  pointer : kind = .notLeaf → o.tid = 0 ∧ o.xid = 0 ∧ o.value.length = 4

structure PageOk (page : Page size) : Prop where
  objects : ∀ o ∈ page.objects, ObjectOk size page.kind o
  ordered : Ordered page.objects
  versions : page.kind = .leaf → ∀ key, (versionsOf key page.objects).length ≤ 2

structure Growing (t : Btree size) (pending : Option Bytes) (free : Set Nat) (s : Shape Bytes) :
    Prop where
  forest : Forest (nodes t) t.rootPage pending free s
  root_linked : t.rootPage ∉ free
  pages : ∀ page ∈ t.pages, PageOk page
  bound : t.pages.length ≤ maxPages

/-- Nothing changes below a level. -/
structure Framed (t t' : Btree size) (s s' : Shape Bytes) (level : Nat) : Prop where
  length : t.pages.length ≤ t'.pages.length
  levels : ∀ j < t.pages.length, s'.level j = s.level j
  below : ∀ j < t.pages.length, s.level j < level → t'.pages[j]? = t.pages[j]? ∧
    s'.span j = s.span j ∧ s'.separator j = s.separator j

/-- A page is to have these objects. -/
structure Splitting (t : Btree size) (path : List Nat) (n : Nat) (kind : PageKind)
    (objects : List PageObject) (pending : Option Bytes) (free : Set Nat) (s : Shape Bytes) :
    Prop where
  stored : n < t.pages.length
  forest : Forest (Function.update (nodes t) n (some (nodeOf kind objects))) t.rootPage pending
    free s
  chain : Chain (Function.update (nodes t) n (some (nodeOf kind objects))) t.rootPage path n
  root_linked : t.rootPage ∉ free
  pages : ∀ page ∈ t.pages, PageOk page
  bound : t.pages.length ≤ maxPages
  objects_ok : ∀ o ∈ objects, ObjectOk size kind o
  versions : kind = .leaf → ∀ key, (versionsOf key objects).length ≤ 2

theorem Growing.stored_of_free {t : Btree size} {pending : Option Bytes} {free : Set Nat}
    {s : Shape Bytes} (h : Growing t pending free s) {j : Nat} (hj : j ∈ free) :
    j < t.pages.length :=
  nodes_isSome.mp (h.forest.free_some j hj)

theorem Framed.refl (t : Btree size) (s : Shape Bytes) (level : Nat) : Framed t t s s level :=
  ⟨le_rfl, fun _ _ => rfl, fun _ _ _ => ⟨rfl, rfl, rfl⟩⟩

theorem Framed.trans {t u v : Btree size} {s s' s'' : Shape Bytes} {level level' : Nat}
    (h : Framed t u s s' level) (h' : Framed u v s' s'' level') (hle : level ≤ level') :
    Framed t v s s'' level where
  length := h.length.trans h'.length
  levels := fun j hj =>
    (h'.levels j (Nat.lt_of_lt_of_le hj h.length)).trans (h.levels j hj)
  below := fun j hj hlevel => by
    obtain ⟨hpage, hspan, hseparator⟩ := h.below j hj hlevel
    have hlevel' : s'.level j < level' := by
      rw [h.levels j hj]
      exact Nat.lt_of_lt_of_le hlevel hle
    obtain ⟨hpage', hspan', hseparator'⟩ := h'.below j (Nat.lt_of_lt_of_le hj h.length) hlevel'
    exact ⟨hpage'.trans hpage, hspan'.trans hspan, hseparator'.trans hseparator⟩

namespace Splitting

variable {t : Btree size} {path : List Nat} {n : Nat} {kind : PageKind} {objects : List PageObject}
variable {pending : Option Bytes} {free : Set Nat} {s : Shape Bytes}

theorem node_ok (h : Splitting t path n kind objects pending free s) :
    NodeOk s pending n (nodeOf kind objects) :=
  h.forest.ok n _ (Function.update_self ..)

theorem strict (h : Splitting t path n kind objects pending free s) (hkind : kind = .notLeaf) :
    Strict objects := by
  subst hkind
  have hpairs := h.node_ok.2.2.1
  rw [List.pairwise_map] at hpairs
  exact hpairs.imp fun hsep => hsep.key_lt

theorem ordered (h : Splitting t path n kind objects pending free s) : Ordered objects := by
  cases hkind : kind with
  | leaf =>
      have hok := h.node_ok
      rw [hkind] at hok
      exact List.pairwise_map.mp hok.2.1
  | notLeaf => exact (h.strict hkind).ordered

theorem fresh (h : Splitting t path n kind objects pending free s) {j : Nat}
    (hj : t.pages.length ≤ j) :
    Function.update (nodes t) n (some (nodeOf kind objects)) j = none := by
  have hstored := h.stored
  rw [Function.update_of_ne (by omega), nodes_eq_none hj]

end Splitting

/-! ## The parts of a page -/

/-- All the keys of a part are before those of the next one. -/
theorem splitObjects_separated {objects : List PageObject} (hordered : Ordered objects)
    (hhalf : ∀ o ∈ objects, o.length ≤ maxAllowedInPage size / 2)
    (hversions : ∀ key, (versionsOf key objects).length ≤ 2) :
    (splitObjects size objects).Pairwise fun g g' => ∀ a ∈ g, ∀ b ∈ g', a.key < b.key := by
  cases objects with
  | nil => exact List.pairwise_singleton ..
  | cons o objects =>
      have hflatten := @splitObjects_flatten size (o :: objects)
      have hapart : (splitObjects size (o :: objects)).Pairwise (Apart (o :: objects)) := by
        change (splitObjectsInto size [o] (0 + o.length) objects).Pairwise _
        rw [Nat.zero_add]
        exact @splitObjectsInto_apart size o [] _ objects hordered (by simp) hhalf
      have hpairs : (splitObjects size (o :: objects)).Pairwise
          fun g g' => ∀ a ∈ g, ∀ b ∈ g', a.key ≤ b.key := by
        rw [Ordered, ← hflatten, List.pairwise_flatten] at hordered
        exact hordered.2
      refine List.Pairwise.imp₂ (fun g g' hle hap a ha b hb => ?_) hpairs hapart
      refine lt_of_le_of_ne (hle a ha b hb) fun hkey => ?_
      exact absurd (hap a ha b hb hkey) (not_lt.mpr (hversions a.key))

theorem appendGroups_bound {kind : PageKind} {groups : List (List PageObject)} {t t' : Btree size}
    {numbers : List Nat} (h : appendGroups kind groups t = .ok numbers t')
    (hbound : t.pages.length ≤ maxPages) : t'.pages.length ≤ maxPages := by
  induction groups generalizing t numbers with
  | nil =>
      obtain ⟨-, rfl⟩ := pure_eq_ok.mp h
      exact hbound
  | cons group groups ih =>
      obtain ⟨page, u, hfirst, hrest⟩ := bind_eq_ok.mp h
      obtain ⟨-, rfl⟩ := ofExcept_eq_ok.mp hfirst
      obtain ⟨n, v, happend, hrest⟩ := bind_eq_ok.mp hrest
      obtain ⟨hlt, rfl, rfl⟩ := appendPage_eq_ok.mp happend
      obtain ⟨rest, w, hothers, hlast⟩ := bind_eq_ok.mp hrest
      obtain ⟨rfl, rfl⟩ := pure_eq_ok.mp hlast
      exact ih hothers (by rwa [List.length_append])

theorem storeGroups_bound {kind : PageKind} {n : Nat} {groups : List (List PageObject)}
    {t t' : Btree size} {numbers : List Nat} (h : storeGroups kind n groups t = .ok numbers t')
    (hbound : t.pages.length ≤ maxPages) : t'.pages.length ≤ maxPages := by
  cases groups with
  | nil =>
      obtain ⟨-, rfl⟩ := pure_eq_ok.mp h
      exact hbound
  | cons group groups =>
      obtain ⟨page, u, hfirst, hrest⟩ := bind_eq_ok.mp h
      obtain ⟨-, rfl⟩ := ofExcept_eq_ok.mp hfirst
      obtain ⟨_, v, hstore, hrest⟩ := bind_eq_ok.mp hrest
      obtain rfl := storePage_eq_ok.mp hstore
      obtain ⟨rest, w, hothers, hlast⟩ := bind_eq_ok.mp hrest
      obtain ⟨rfl, rfl⟩ := pure_eq_ok.mp hlast
      exact appendGroups_bound hothers (by simpa using hbound)

theorem pageOk_buildPage {kind : PageKind} {objects : List PageObject} {page : Page size}
    (h : buildPage kind objects = .ok page) (hobjects : ∀ o ∈ objects, ObjectOk size kind o) :
    PageOk page := by
  obtain ⟨hkind, hperm, hordered, hversions⟩ := buildPage_spec h
  refine ⟨fun o ho => ?_, hordered, fun _ => hversions⟩
  rw [hkind]
  exact hobjects o (hperm.mem_iff.mp ho)

/-- After the parts have been stored, and before they are linked. -/
structure Stored (t u : Btree size) (n : Nat) (kind : PageKind) (first : List PageObject)
    (rest : List (List PageObject)) (pending : Option Bytes) (free : Set Nat) (s s' : Shape Bytes) :
    Prop where
  growing : Growing u pending
    (free ∪ {j | t.pages.length ≤ j ∧ j < t.pages.length + rest.length}) s'
  siblings : Siblings (nodes u) s' n t.pages.length (rest.map headKey)
  kept : ∀ j < t.pages.length, s'.level j = s.level j ∧ s'.span j = s.span j ∧
    s'.separator j = s.separator j
  root : u.rootPage = t.rootPage
  length : u.pages.length = t.pages.length + rest.length
  others : ∀ j < t.pages.length, j ≠ n → u.pages[j]? = t.pages[j]?
  node : nodes u n = some (nodeOf kind first)
  nonempty : ∀ g ∈ first :: rest, g ≠ []
  separated : (first :: rest).Pairwise fun g g' => ∀ a ∈ g, ∀ b ∈ g', a.key < b.key
  objects_ok : ∀ g ∈ first :: rest, ∀ o ∈ g, ObjectOk size kind o

theorem Splitting.stored_of_storeGroups {t u : Btree size} {path : List Nat} {n : Nat}
    {kind : PageKind} {objects : List PageObject} {pending : Option Bytes} {free : Set Nat}
    {s : Shape Bytes} {numbers : List Nat}
    (h : Splitting t path n kind objects pending free s) (hne : objects ≠ [])
    (hstore : storeGroups kind n (splitObjects size objects) t = .ok numbers u) :
    ∃ first rest s', splitObjects size objects = first :: rest ∧
      numbers = n :: List.range' t.pages.length rest.length ∧
      Stored t u n kind first rest pending free s s' := by
  obtain ⟨page, pages, hbuilt, hpages, hroot, hnumbers⟩ :=
    storeGroups_ok hstore (splitObjectsInto_ne_nil _ _ _)
  have hflatten := @splitObjects_flatten size objects
  have hgroupsNe := @splitObjects_mem_ne_nil size objects hne
  have hseparated : (splitObjects size objects).Pairwise
      fun g g' => ∀ a ∈ g, ∀ b ∈ g', a.key < b.key := by
    cases hkind : kind with
    | leaf =>
        exact splitObjects_separated h.ordered (fun o ho => (h.objects_ok o ho).half)
          (h.versions hkind)
    | notLeaf =>
        have hstrict := h.strict hkind
        rw [Strict, ← hflatten, List.pairwise_flatten] at hstrict
        exact hstrict.2
  have hordered : ∀ g ∈ splitObjects size objects, Ordered g ∧ (kind = .notLeaf → Strict g) := by
    intro g hg
    have hsub : g.Sublist objects := hflatten ▸ List.sublist_flatten_of_mem hg
    exact ⟨h.ordered.sublist hsub, fun hkind => (h.strict hkind).sublist hsub⟩
  generalize splitObjects size objects = groups at *
  obtain ⟨first, rest, rfl⟩ : ∃ first rest, groups = first :: rest := by
    cases hbuilt
    exact ⟨_, _, rfl⟩
  rw [List.forall₂_cons] at hbuilt
  obtain ⟨hfirst, hrest⟩ := hbuilt
  have hlength : rest.length = pages.length := hrest.length_eq
  -- The pages that are stored are the parts.
  have hnodes : nodes u = placeFrom (Function.update (nodes t) n (some (nodeOf kind first)))
      t.pages.length (rest.map (nodeOf kind)) := by
    have hset := @nodes_set _ t { t with pages := t.pages.set n page } n page rfl h.stored
    obtain ⟨hfirstOrdered, hfirstStrict⟩ := hordered first List.mem_cons_self
    rw [nodeOf_buildPage hfirst hfirstOrdered hfirstStrict] at hset
    have happend := @nodes_append _ { t with pages := t.pages.set n page } u pages hpages
    rw [hset, List.length_set] at happend
    rw [happend]
    congr 1
    have hparts : ∀ g ∈ rest, Ordered g ∧ (kind = .notLeaf → Strict g) :=
      fun g hg => hordered g (List.mem_cons_of_mem _ hg)
    clear * - hrest hparts
    induction hrest with
    | nil => rfl
    | cons hbuild _ ih =>
        obtain ⟨hg, hstrict⟩ := hparts _ List.mem_cons_self
        rw [List.map_cons, List.map_cons, nodeOf_buildPage hbuild hg hstrict,
          ih fun g' hg' => hparts g' (List.mem_cons_of_mem _ hg')]
  have hparts := @splitsInto_groups kind first rest hgroupsNe hseparated
  rw [hflatten] at hparts
  obtain ⟨s', hforest, hsiblings, hkept⟩ :=
    h.forest.splitAll (Function.update_self ..) (fun j hj => h.fresh hj) hparts
  rw [Function.update_idem, List.map_map, List.length_map] at hforest
  rw [Function.update_idem, List.map_map, List.map_map] at hsiblings
  have hsnd : (Prod.snd ∘ fun g => (headKey g, nodeOf kind g)) = nodeOf kind := rfl
  have hfst : (Prod.fst ∘ fun g => (headKey g, nodeOf kind g)) = headKey := rfl
  rw [hsnd, ← hnodes] at hforest hsiblings
  rw [hfst] at hsiblings
  have hlen : u.pages.length = t.pages.length + rest.length := by
    rw [hpages, List.length_append, List.length_set, hlength]
  have hobjects : ∀ g ∈ first :: rest, ∀ o ∈ g, ObjectOk size kind o := by
    intro g hg o ho
    apply h.objects_ok
    rw [← hflatten]
    exact List.mem_flatten_of_mem hg ho
  refine ⟨first, rest, s', rfl, by simpa using hnumbers, ?_, hsiblings, hkept, hroot, hlen, ?_, ?_,
    hgroupsNe, hseparated, hobjects⟩
  · refine ⟨by rwa [hroot], ?_, fun q hq => ?_, storeGroups_bound hstore h.bound⟩
    · rw [hroot]
      have hstored : t.rootPage < t.pages.length := by
        by_contra hge
        have hsome := h.forest.root_some
        rw [h.fresh (not_lt.mp hge)] at hsome
        cases hsome
      rintro (hfree | ⟨hge, -⟩)
      · exact h.root_linked hfree
      · omega
    · rw [hpages, List.mem_append] at hq
      obtain hq | hq := hq
      · obtain hq | rfl := List.mem_or_eq_of_mem_set hq
        · exact h.pages q hq
        · exact pageOk_buildPage hfirst (hobjects first List.mem_cons_self)
      · obtain ⟨i, hi, rfl⟩ := List.mem_iff_getElem.mp hq
        have hlt : i < rest.length := hlength ▸ hi
        exact pageOk_buildPage (hrest.get hlt hi)
          (hobjects _ (List.mem_cons_of_mem _ (List.getElem_mem hlt)))
  · intro j hj hjn
    rw [hpages, List.getElem?_append_left (by simpa using hj), List.getElem?_set_ne (Ne.symm hjn)]
  · rw [hnodes, placeFrom_of_lt _ _ h.stored, Function.update_self]

/-! ## Pointers -/

theorem target_pointer (key : Bytes) {n : Nat} (h : n < maxPages) : target (pointer key n) = n := by
  have hlt : n < 2 ^ 32 := by
    rw [maxPages] at h
    omega
  change ofBigEndian ((writeU32 n).take 4) = n
  rw [List.take_of_length_le (by rw [length_writeU32]), ofBigEndian_writeU32 hlt]

theorem headKey_eq {o : PageObject} {group : List PageObject} : headKey (o :: group) = o.key := rfl

theorem first?_nodeOf {kind : PageKind} {group : List PageObject} (h : group ≠ []) :
    (nodeOf kind group).first? = some (headKey group) := by
  obtain ⟨o, group, rfl⟩ := List.exists_cons_of_ne_nil h
  cases kind <;> rfl

theorem objectOk_pointer {kind : PageKind} {group : List PageObject} {n : Nat} (h : group ≠ [])
    (hobjects : ∀ o ∈ group, ObjectOk size kind o) :
    ObjectOk size .notLeaf (pointer (headKey group) n) := by
  obtain ⟨o, group, rfl⟩ := List.exists_cons_of_ne_nil h
  have ho := hobjects o List.mem_cons_self
  have hlength : (pointer (headKey (o :: group)) n).length =
      pageObjectPrefixLength + o.key.length + 4 := by
    simp [pointer, PageObject.new, PageObject.length, headKey_eq]
  exact ⟨ho.key_ne, hlength ▸ ho.pointer_half, ho.pointer_half,
    fun _ => ⟨rfl, rfl, length_writeU32 n⟩⟩

theorem nodeOf_pointers {entries : List (Bytes × Nat)} (h : ∀ e ∈ entries, e.2 < maxPages) :
    nodeOf .notLeaf (entries.map fun (k, j) => pointer k j) = .inner entries := by
  rw [nodeOf, List.map_map]
  congr 1
  conv_rhs => rw [← List.map_id entries]
  refine List.map_congr_left fun e he => ?_
  obtain ⟨k, j⟩ := e
  exact Prod.ext rfl (target_pointer k (h _ he))

namespace Stored

variable {t u : Btree size} {n : Nat} {kind : PageKind} {first : List PageObject}
variable {rest : List (List PageObject)} {pending : Option Bytes} {free : Set Nat}
variable {s s' : Shape Bytes}

theorem heads (h : Stored t u n kind first rest pending free s s') :
    (headKey first :: rest.map headKey).Pairwise (· < ·) := by
  have hpairs := h.separated
  rw [← List.map_cons, List.pairwise_map]
  refine hpairs.imp_of_mem fun hg hg' hlt => ?_
  obtain ⟨a, g, rfl⟩ := List.exists_cons_of_ne_nil (h.nonempty _ hg)
  obtain ⟨b, g', rfl⟩ := List.exists_cons_of_ne_nil (h.nonempty _ hg')
  exact hlt a List.mem_cons_self b List.mem_cons_self

/-- The pointers to the parts. -/
theorem pointers (h : Stored t u n kind first rest pending free s s') :
    groupPointers (first :: rest) (n :: List.range' t.pages.length rest.length) =
      ((headKey first, n) :: (rest.map headKey).zip
        (List.range' t.pages.length (rest.map headKey).length)).map fun (k, j) => pointer k j := by
  rw [groupPointers_eq h.nonempty, List.zip_cons_cons, List.map_cons, List.map_cons,
    List.zip_map_left, List.map_map, List.length_map]
  rfl

theorem number_lt (h : Stored t u n kind first rest pending free s s') (hn : n < t.pages.length)
    {e : Bytes × Nat} (he : e ∈ (headKey first, n) :: (rest.map headKey).zip
      (List.range' t.pages.length (rest.map headKey).length)) : e.2 < u.pages.length := by
  rw [h.length]
  obtain rfl | he := List.mem_cons.mp he
  · simp only
    omega
  · have hrange := (List.of_mem_zip he).2
    rw [List.mem_range'_1, List.length_map] at hrange
    exact hrange.2

theorem mem_groups {k : Bytes} (hk : k ∈ headKey first :: rest.map headKey) :
    ∃ g ∈ first :: rest, headKey g = k := by
  rwa [← List.map_cons, List.mem_map] at hk

theorem kept_free
    (hfree : ∀ j ∈ free, j < t.pages.length) :
    (free ∪ {j | t.pages.length ≤ j ∧ j < t.pages.length + rest.length}) \
      {j | t.pages.length ≤ j ∧ j < t.pages.length + rest.length} = free := by
  ext j
  simp only [Set.mem_sdiff, Set.mem_union, Set.mem_ofPred_eq]
  constructor
  · rintro ⟨hj | hj, hnot⟩
    · exact hj
    · exact absurd hj hnot
  · intro hj
    exact ⟨.inl hj, fun hrange => absurd hrange.1 (not_le.mpr (hfree j hj))⟩

theorem pointer_ok (h : Stored t u n kind first rest pending free s s') {e : Bytes × Nat}
    (he : e ∈ (headKey first, n) :: (rest.map headKey).zip
      (List.range' t.pages.length (rest.map headKey).length)) :
    ObjectOk size .notLeaf (pointer e.1 e.2) := by
  have hkey : e.1 ∈ headKey first :: rest.map headKey := by
    obtain rfl | he := List.mem_cons.mp he
    · exact List.mem_cons_self
    · exact List.mem_cons_of_mem _ (List.of_mem_zip he).1
  obtain ⟨g, hg, hhead⟩ := mem_groups hkey
  rw [← hhead]
  exact objectOk_pointer (h.nonempty g hg) (h.objects_ok g hg)

theorem framed (h : Stored t u n kind first rest pending free s s') :
    Framed t u s s' (s.level n) where
  length := by
    rw [h.length]
    omega
  levels := fun j hj => (h.kept j hj).1
  below := fun j hj hlevel => by
    have hne : j ≠ n := by
      rintro rfl
      exact lt_irrefl _ hlevel
    exact ⟨h.others j hj hne, (h.kept j hj).2⟩

/-- The root gets a new page above it. -/
theorem newRoot (h : Stored t u t.rootPage kind first rest pending free s s')
    (hstored : t.rootPage < t.pages.length) (hfree : ∀ j ∈ free, j < t.pages.length)
    {v : Btree size}
    (hrun : newRoot (groupPointers (first :: rest)
      (t.rootPage :: List.range' t.pages.length rest.length)) u = .ok () v) :
    ∃ s'', Growing v pending free s'' ∧ Framed t v s s'' (s.level t.rootPage) := by
  obtain ⟨page, w, hpage, hrun⟩ := bind_eq_ok.mp hrun
  obtain ⟨hbuild, rfl⟩ := ofExcept_eq_ok.mp hpage
  obtain ⟨R, w, happend, hset⟩ := bind_eq_ok.mp hrun
  obtain ⟨hbound, rfl, rfl⟩ := appendPage_eq_ok.mp happend
  have hv := setRootPage_eq_ok.mp hset
  rw [h.pointers] at hbuild
  have hnumbers := fun e he => Nat.lt_of_lt_of_le (@number_lt _ _ _ _ _ _ _ _ _ _ _ h hstored e he)
    h.growing.bound
  have hstrict : Strict (((headKey first, t.rootPage) :: (rest.map headKey).zip
      (List.range' t.pages.length (rest.map headKey).length)).map fun (k, j) => pointer k j) := by
    have hheads := h.heads
    have hfst : ((headKey first, t.rootPage) :: (rest.map headKey).zip
        (List.range' t.pages.length (rest.map headKey).length)).map Prod.fst =
          headKey first :: rest.map headKey := by
      rw [List.map_cons, List.map_fst_zip (by rw [List.length_range'])]
    rw [← hfst, List.pairwise_map] at hheads
    rw [Strict, List.pairwise_map]
    exact hheads
  have hnodes : nodes v = Function.update (nodes u) u.pages.length (some (.inner
      ((headKey first, t.rootPage) :: (rest.map headKey).zip
        (List.range' t.pages.length (rest.map headKey).length)))) := by
    have hpages : v.pages = u.pages ++ [page] := by rw [← hv]
    rw [nodes_append hpages, List.map_singleton, nodeOf_buildPage hbuild hstrict.ordered
      (fun _ => hstrict), nodeOf_pointers hnumbers]
    rfl
  have hroot : u.rootPage = t.rootPage := h.root
  have hforest := h.growing.forest
  rw [hroot] at hforest
  have hm : t.pages.length + (rest.map headKey).length = u.pages.length := by
    rw [List.length_map, h.length]
  obtain ⟨s'', hplanted, hlevels, hbelow⟩ := hforest.plant h.node
    (first?_nodeOf (h.nonempty first List.mem_cons_self)) (nodes_eq_none le_rfl)
    (hroot ▸ h.growing.root_linked) hstored
    (fun j hge hlt => .inr ⟨hge, by rwa [List.length_map] at hlt⟩) h.siblings h.heads
  rw [← hnodes, List.length_map, kept_free hfree] at hplanted
  have hlt : ∀ j < t.pages.length, j ≠ u.pages.length := by
    intro j hj
    rw [h.length]
    omega
  refine ⟨s'', ⟨?_, ?_, ?_, ?_⟩, ?_, fun j hj => ?_, fun j hj hlevel => ?_⟩
  · rw [← hv] at hplanted ⊢
    exact hplanted
  · rw [← hv]
    intro hmem
    exact hlt _ (hfree _ hmem) rfl
  · rw [← hv]
    intro q hq
    obtain hq | hq := List.mem_append.mp hq
    · exact h.growing.pages q hq
    · rw [List.mem_singleton.mp hq]
      refine pageOk_buildPage hbuild fun o ho => ?_
      obtain ⟨e, he, rfl⟩ := List.mem_map.mp ho
      exact h.pointer_ok he
  · rw [← hv, List.length_append]
    exact hbound
  · rw [← hv, List.length_append, h.length]
    omega
  · rw [hlevels j (hlt j hj)]
    exact (h.kept j hj).1
  · have hlevel' : s'.level j < s'.level t.rootPage := by
      rwa [(h.kept j hj).1, (h.kept _ hstored).1]
    obtain ⟨hspan, hseparator⟩ := hbelow j (hlt j hj) hlevel'
    obtain ⟨hpage, hspan', hseparator'⟩ := h.framed.below j hj hlevel
    refine ⟨?_, hspan.trans hspan', hseparator.trans hseparator'⟩
    rw [← hv, List.getElem?_append_left (by rw [h.length]; omega), hpage]

end Stored

/-! ## Changing a page above -/

theorem Splitting.store {t t' : Btree size} {path : List Nat} {n : Nat} {kind : PageKind}
    {page page' : Page size} {obj : PageObject} {pending : Option Bytes} {free : Set Nat}
    {s : Shape Bytes}
    (h : Splitting t path n kind (insertObject obj page.objects) pending free s)
    (hkind : page.kind = kind) (hadd : page.add obj = .ok page')
    (hpages : t'.pages = t.pages.set n page') (hroot : t'.rootPage = t.rootPage) :
    nodes t' = Function.update (nodes t) n (some (nodeOf kind (insertObject obj page.objects))) ∧
      Growing t' pending free s ∧ Framed t t' s s (s.level n) := by
  obtain ⟨hkind', hobjects⟩ := kind_add hadd
  have hperm : page'.objects.Perm (insertObject obj page.objects) := by
    rw [hobjects]
    refine (sortObjects_perm _).trans (List.perm_append_comm.trans ?_)
    exact (insertObject_perm obj page.objects).symm
  have hordered : Ordered page'.objects := by
    rw [hobjects]
    exact sortObjects_sorted _
  have hnodes : nodes t' = Function.update (nodes t) n
      (some (nodeOf kind (insertObject obj page.objects))) := by
    rw [nodes_set hpages h.stored, hkind', hkind]
    congr 2
    cases hk : kind with
    | leaf => exact congrArg Node.leaf (map_key_eq hperm hordered h.ordered)
    | notLeaf => rw [eq_of_strict hperm.symm (h.strict hk) hordered]
  refine ⟨hnodes, ⟨by rw [hnodes, hroot]; exact h.forest, by rw [hroot]; exact h.root_linked,
    fun q hq => ?_, by rw [hpages, List.length_set]; exact h.bound⟩, ?_, fun _ _ => rfl,
    fun j _ hlevel => ⟨?_, rfl, rfl⟩⟩
  · rw [hpages] at hq
    obtain hq | rfl := List.mem_or_eq_of_mem_set hq
    · exact h.pages q hq
    · refine ⟨fun o ho => ?_, hordered, fun hleaf key => ?_⟩
      · rw [hkind', hkind]
        exact h.objects_ok o (hperm.mem_iff.mp ho)
      · rw [hkind', hkind] at hleaf
        have hlength : (versionsOf key q.objects).length =
            (versionsOf key (insertObject obj page.objects)).length := (hperm.filter _).length_eq
        rw [hlength]
        exact h.versions hleaf key
  · rw [hpages, List.length_set]
  · have hne : n ≠ j := by
      rintro rfl
      exact lt_irrefl _ hlevel
    rw [hpages, List.getElem?_set_ne hne]

/-- What a split of a page that is not a leaf does. -/
def SplitsPages (split : List Nat → Page size → PageObject → PageKind → BtreeM size Unit) : Prop :=
  ∀ {path page ptr t t' pending free s n},
    Splitting t path n .notLeaf (insertObject ptr page.objects) pending free s →
    (insertPosition ptr page.objects = some 0 → ∀ k, pending = some k → k = ptr.key) →
    split path page ptr .notLeaf t = .ok () t' →
    ∃ s', Growing t' pending free s' ∧ Framed t t' s s' (s.level n)

theorem insertPosition_eq_zero {obj : PageObject} {objects : List PageObject} :
    insertPosition obj objects = some 0 ↔ ∃ o rest, objects = o :: rest ∧ obj.key ≤ o.key := by
  unfold insertPosition
  cases objects with
  | nil => simp
  | cons o rest =>
      rw [List.findIdx?_cons]
      by_cases hle : obj.key ≤ o.key
      · simp [hle]
      · cases rest.findIdx? fun o => obj.key ≤ o.key <;> simp [hle]

theorem insertObject_eq_of_strict {ptr : PageObject} {before after : List PageObject}
    (hordered : Ordered (before ++ after)) (hstrict : Strict (before ++ ptr :: after)) :
    insertObject ptr (before ++ after) = before ++ ptr :: after := by
  refine (eq_of_strict ?_ hstrict (insertObject_ordered ptr hordered)).symm
  exact List.perm_middle.trans (insertObject_perm ptr _).symm

theorem delete_eq_of_strict {before after : List PageObject} {o : PageObject} {page : Page size}
    (hobjects : page.objects = before ++ o :: after) (hstrict : Strict (before ++ o :: after))
    (htid : o.tid = 0) : (page.delete o.key 0).1.objects = before ++ after := by
  rw [Strict, List.pairwise_append, List.pairwise_cons] at hstrict
  obtain ⟨-, ⟨hafter, -⟩, hbefore⟩ := hstrict
  change page.objects.filter _ = _
  rw [hobjects, List.filter_append, List.filter_cons_of_neg (by simp [htid])]
  congr 1
  · refine List.filter_eq_self.mpr fun a ha => ?_
    have hne := (hbefore a ha o List.mem_cons_self).ne
    simp [hne]
  · refine List.filter_eq_self.mpr fun a ha => ?_
    have hne := (hafter a ha).ne'
    simp [hne]

/-- The page above has an entry for each page that a pointer leads to. -/
theorem Growing.parent {t : Btree size} {pending : Option Bytes} {free : Set Nat} {s : Shape Bytes}
    (h : Growing t pending free s) {q n : Nat} (hlink : Links (nodes t) q n) :
    ∃ page before o after, t.pages[q]? = some page ∧ page.kind = .notLeaf ∧
      page.objects = before ++ o :: after ∧ target o = n ∧ s.separator n = some o.key := by
  obtain ⟨entries, key, hq, hmem⟩ := hlink
  have hentry := h.forest.entry hq hmem
  obtain ⟨page, hpage, hkind, rfl⟩ := nodes_eq_inner hq
  obtain ⟨o, ho, heq⟩ := List.mem_map.mp hmem
  cases heq
  obtain ⟨before, after, hobjects⟩ := List.append_of_mem ho
  exact ⟨page, before, o, after, hpage, hkind, hobjects, rfl, hentry.separator⟩

theorem Growing.page_ok {t : Btree size} {pending : Option Bytes} {free : Set Nat} {s : Shape Bytes}
    (h : Growing t pending free s) {q : Nat} {page : Page size} (hpage : t.pages[q]? = some page) :
    PageOk page := h.pages page (List.mem_of_getElem? hpage)

theorem Growing.inner {t : Btree size} {pending : Option Bytes} {free : Set Nat} {s : Shape Bytes}
    (h : Growing t pending free s) {q : Nat} {page : Page size} (hpage : t.pages[q]? = some page)
    (hkind : page.kind = .notLeaf) :
    nodes t q = some (.inner (page.objects.map fun o => (o.key, target o))) ∧
      Strict page.objects := by
  have hnode := nodes_eq_some hpage
  rw [hkind] at hnode
  refine ⟨hnode, ?_⟩
  have hpairs := (h.forest.ok q _ hnode).2.2.1
  rw [List.pairwise_map] at hpairs
  exact hpairs.imp fun hsep => hsep.key_lt

/-- A pointer leads one level down. -/
theorem Growing.below {t : Btree size} {pending : Option Bytes} {free : Set Nat} {s : Shape Bytes}
    (h : Growing t pending free s) {q : Nat} {page : Page size} (hpage : t.pages[q]? = some page)
    (hkind : page.kind = .notLeaf) {o : PageObject} (ho : o ∈ page.objects) :
    target o < t.pages.length ∧ s.level (target o) + 1 = s.level q := by
  obtain ⟨hnode, -⟩ := h.inner hpage hkind
  have hmem : (o.key, target o) ∈ page.objects.map fun o => (o.key, target o) :=
    List.mem_map_of_mem ho
  exact ⟨nodes_isSome.mp (h.forest.closed q _ _ hnode hmem), (h.forest.entry hnode hmem).level⟩

section

variable {split : List Nat → Page size → PageObject → PageKind → BtreeM size Unit}
variable {t t' : Btree size} {path : List Nat} {pending : Option Bytes} {free : Set Nat}
variable {s : Shape Bytes} {n m : Nat} {k old : Bytes}

/-- The page above gets a pointer to a part. -/
theorem addPagePointer_spec (hsplit : SplitsPages split) (h : Growing t pending free s)
    (hchain : Chain (nodes t) t.rootPage path n) (hpath : path.length ≠ 1) (hm : m ∈ free)
    (hsibling : Sibling (nodes t) s n m k) (hold : s.separator n = some old) (hlt : old < k)
    (hptr : ObjectOk size .notLeaf (pointer k m))
    (hrun : addPagePointer split path (pointer k m) t = .ok () t') :
    ∃ q s', Growing t' pending (free \ {m}) s' ∧
      Framed t t' (Forest.linkShape s q n m k) s' (s.level n + 1) := by
  obtain ⟨q, hchainq, hlink⟩ := hchain.dropLast hpath
  have hlevel := h.forest.level_of_links hlink
  obtain ⟨page, before, o, after, hpage, hkind, hobjects, htarget, hseparator⟩ := h.parent hlink
  have hok := h.page_ok hpage
  obtain ⟨hnode, -⟩ := h.inner hpage hkind
  obtain ⟨node, hn⟩ := Option.isSome_iff_exists.mp
    (h.forest.closed q _ (o.key, target o) hnode (by simp [hobjects]))
  simp only [htarget] at hn
  rw [hold] at hseparator
  obtain rfl : old = o.key := Option.some.inj hseparator
  -- The entry of the part comes right after the one of the page before it.
  have hmlt : m < maxPages := Nat.lt_of_lt_of_le (h.stored_of_free hm) h.bound
  have hentries : (before ++ o :: pointer k m :: after).map (fun o => (o.key, target o)) =
      before.map (fun o => (o.key, target o)) ++ (o.key, n) :: (k, m) ::
        after.map (fun o => (o.key, target o)) := by
    rw [List.map_append, List.map_cons, List.map_cons, htarget, target_pointer k hmlt]
    rfl
  rw [hobjects, List.map_append, List.map_cons, htarget] at hnode
  have hlinked :=
    h.forest.link hnode hn hm hsibling.level hlt hsibling.mem (hsibling.within node hn)
    hsibling.span
  rw [← hentries] at hlinked
  have hstrict : Strict (before ++ o :: pointer k m :: after) := by
    have hpairs := (hlinked.ok q _ (Function.update_self ..)).2.2.1
    rw [List.pairwise_map] at hpairs
    exact hpairs.imp fun hsep => hsep.key_lt
  have hinsert : insertObject (pointer k m) page.objects = before ++ o :: pointer k m :: after := by
    have hordered := hok.ordered
    rw [hobjects] at hordered ⊢
    have hsplitAt : before ++ o :: after = (before ++ [o]) ++ after := by simp
    rw [hsplitAt] at hordered ⊢
    rw [insertObject_eq_of_strict hordered (by simpa using hstrict)]
    simp
  have hsplitting : Splitting t path.dropLast q .notLeaf (insertObject (pointer k m) page.objects)
      pending (free \ {m}) (Forest.linkShape s q n m k) := by
    rw [hinsert]
    refine ⟨(List.getElem?_eq_some_iff.mp hpage).1, hlinked,
      h.forest.chain_update hchainq _, fun hmem => h.root_linked hmem.1, h.pages, h.bound,
      fun o' ho' => ?_, fun hleaf => by cases hleaf⟩
    rw [← hinsert, (insertObject_perm _ _).mem_iff, List.mem_cons] at ho'
    obtain rfl | ho' := ho'
    · exact hptr
    · have ho := hok.objects o' ho'
      rwa [hkind] at ho
  have hframe : (Forest.linkShape s q n m k).level q = s.level n + 1 := hlevel.symm
  obtain ⟨parentNumber, u, hparent, hrun⟩ := bind_eq_ok.mp hrun
  obtain ⟨hlast, rfl⟩ := lastPage_eq_ok.mp hparent
  obtain rfl : q = parentNumber := Option.some.inj (hchainq.getLast?.symm.trans hlast)
  obtain ⟨page', u, hfetch, hrun⟩ := bind_eq_ok.mp hrun
  obtain ⟨hpage', rfl⟩ := fetchPage_eq_ok.mp hfetch
  obtain rfl : page = page' := Option.some.inj (hpage.symm.trans hpage')
  rw [← hframe]
  split at hrun
  · have hposition : insertPosition (pointer k m) page.objects ≠ some 0 := by
      rw [Ne, insertPosition_eq_zero, hobjects]
      rintro ⟨first, rest, heq, hle⟩
      have hordered := hok.ordered
      rw [hobjects, heq] at hordered
      have hmem : o ∈ first :: rest := heq ▸ List.mem_append_right _ List.mem_cons_self
      obtain rfl | hmem := List.mem_cons.mp hmem
      · exact absurd hlt (not_lt.mpr hle)
      · have hfirst := (List.pairwise_cons.mp hordered).1 o hmem
        exact absurd hlt (not_lt.mpr (hle.trans hfirst))
    obtain ⟨s', hgrowing, hframed⟩ := hsplit hsplitting (fun hzero => absurd hzero hposition) hrun
    exact ⟨q, s', hgrowing, hframed⟩
  · obtain ⟨page'', u, hfit, hstore⟩ := bind_eq_ok.mp hrun
    obtain ⟨hadd, rfl⟩ := ofExcept_eq_ok.mp hfit
    have hstored := storePage_eq_ok.mp hstore
    obtain ⟨-, hgrowing, hframed⟩ := hsplitting.store hkind hadd
      (show t'.pages = t.pages.set q page'' by rw [← hstored])
      (show t'.rootPage = t.rootPage by rw [← hstored])
    exact ⟨q, _, hgrowing, hframed⟩

/-- The pointer to a page is replaced. -/
theorem replacePointer_spec (hsplit : SplitsPages split) (h : Growing t pending free s)
    {q c : Nat} {page : Page size} {before after : List PageObject} {o ptr : PageObject} {b : Bool}
    {node : Node Bytes} (hchain : Chain (nodes t) t.rootPage path q)
    (hpage : t.pages[q]? = some page) (hkind : page.kind = .notLeaf)
    (hobjects : page.objects = before ++ o :: after) (htarget : target o = c)
    (hptrTarget : target ptr = c) (hptr : ObjectOk size .notLeaf ptr) (hn : nodes t c = some node)
    (hmem : ptr.key ∈ s.span c) (hwithin : node.Within s {y | ptr.key ≤ y})
    (hpending : ∀ k, pending = some k → k = ptr.key)
    (hrun : replacePointer split path page o.key ptr t = .ok b t') :
    ∃ s', Growing t' pending free s' ∧
      Framed t t' (Forest.rekeyShape s c ptr.key) s' (s.level q) ∧
      (b = false → t'.rootPage = t.rootPage ∧ nodes t' = Function.update (nodes t) q
        (some (nodeOf .notLeaf (before ++ ptr :: after)))) := by
  have hok := h.page_ok hpage
  obtain ⟨hnode, hstrict⟩ := h.inner hpage hkind
  rw [hobjects] at hnode hstrict
  have hoOk := hok.objects o (by simp [hobjects])
  rw [hkind] at hoOk
  have hentries : (before ++ ptr :: after).map (fun o => (o.key, target o)) =
      before.map (fun o => (o.key, target o)) ++ (ptr.key, c) ::
        after.map (fun o => (o.key, target o)) := by
    rw [List.map_append, List.map_cons, hptrTarget]
  rw [List.map_append, List.map_cons, htarget] at hnode
  have hrekeyed := h.forest.rekey hnode hn hmem hwithin
  rw [← hentries] at hrekeyed
  have hstrict' : Strict (before ++ ptr :: after) := by
    have hpairs := (hrekeyed.ok q _ (Function.update_self ..)).2.2.1
    rw [List.pairwise_map] at hpairs
    exact hpairs.imp fun hsep => hsep.key_lt
  -- The page without the old pointer.
  have hdeleted : (page.delete o.key 0).1.objects = before ++ after :=
    delete_eq_of_strict hobjects hstrict (hoOk.pointer rfl).1
  have hordered : Ordered (before ++ after) :=
    hstrict.ordered.sublist (List.Sublist.append_left (List.sublist_cons_self o after) before)
  have hinsert : insertObject ptr (page.delete o.key 0).1.objects = before ++ ptr :: after := by
    rw [hdeleted, insertObject_eq_of_strict hordered hstrict']
  have hsplitting : Splitting t path q .notLeaf (insertObject ptr (page.delete o.key 0).1.objects)
      pending free (Forest.rekeyShape s c ptr.key) := by
    rw [hinsert]
    refine ⟨(List.getElem?_eq_some_iff.mp hpage).1, hrekeyed, h.forest.chain_update hchain _,
      h.root_linked, h.pages, h.bound, fun o' ho' => ?_, fun hleaf => by cases hleaf⟩
    rw [← hinsert, (insertObject_perm _ _).mem_iff, List.mem_cons] at ho'
    obtain rfl | ho' := ho'
    · exact hptr
    · rw [hdeleted] at ho'
      have ho := hok.objects o' (by
        rw [hobjects]
        exact (List.Sublist.append_left (List.sublist_cons_self o after) before).subset ho')
      rwa [hkind] at ho
  simp only [replacePointer, hoOk.key_ne, ne_eq, not_false_eq_true, if_true] at hrun
  split at hrun
  · obtain ⟨_, u, hfirst, hlast⟩ := bind_eq_ok.mp hrun
    obtain ⟨rfl, rfl⟩ := pure_eq_ok.mp hlast
    obtain ⟨s', hgrowing, hframed⟩ := hsplit hsplitting (fun _ => hpending) hfirst
    exact ⟨s', hgrowing, hframed, fun hfalse => by cases hfalse⟩
  · obtain ⟨page', u, hfit, hrun⟩ := bind_eq_ok.mp hrun
    obtain ⟨hadd, rfl⟩ := ofExcept_eq_ok.mp hfit
    obtain ⟨number, u, hnumber, hrun⟩ := bind_eq_ok.mp hrun
    obtain ⟨hlast, rfl⟩ := lastPage_eq_ok.mp hnumber
    obtain rfl : q = number := Option.some.inj (hchain.getLast?.symm.trans hlast)
    obtain ⟨_, u, hstore, hlast⟩ := bind_eq_ok.mp hrun
    obtain ⟨rfl, rfl⟩ := pure_eq_ok.mp hlast
    have hstored := storePage_eq_ok.mp hstore
    obtain ⟨hnodes, hgrowing, hframed⟩ := hsplitting.store hkind hadd
      (show u.pages = t.pages.set q page' by rw [← hstored])
      (show u.rootPage = t.rootPage by rw [← hstored])
    rw [hinsert] at hnodes
    exact ⟨_, hgrowing, hframed, fun _ => ⟨by rw [← hstored], hnodes⟩⟩

end

end Vsql.Btree
