import Vsql.Walk.PageIterator

/-!
# Positions in the tree

The pages above a leaf, with the positions of the pointers to it, say which leaves come after
it.  Climbing and going down finds the next one of them.
-/

namespace Vsql

open Foundation

namespace Btree

variable {size : PageSize}

/-- The pages at and below a page are at most `height` deep. -/
def IsTree (t : Btree size) : Nat → Nat → Prop
  | 0, _ => False
  | height + 1, n => ∃ page, t.pages[n]? = some page ∧ (page.kind = .notLeaf →
      page.objects ≠ [] ∧ ∀ o ∈ page.objects, IsTree t height (target o))

/-- The objects of each leaf at and below a page. -/
def leavesBelow (t : Btree size) : Nat → Nat → List (List PageObject)
  | 0, _ => []
  | height + 1, n =>
      match t.pages[n]? with
      | none => []
      | some page =>
          match page.kind with
          | .leaf => [page.objects]
          | .notLeaf => page.objects.flatMap fun o => leavesBelow t height (target o)

def leaves (t : Btree size) : List (List PageObject) := leavesBelow t maxPages t.rootPage

/-- The objects of the last leaf from the position on that is the number of pointers of the
root. -/
def repeated (t : Btree size) : List PageObject :=
  match t.pages[t.rootPage]? with
  | none => []
  | some page =>
      match page.kind with
      | .leaf => []
      | .notLeaf => (t.leaves.getLastD []).drop page.objects.length

theorem leavesBelow_leaf {t : Btree size} {height n : Nat} {page : Page size}
    (hpage : t.pages[n]? = some page) (hkind : page.kind = .leaf) :
    leavesBelow t (height + 1) n = [page.objects] := by
  rw [leavesBelow, hpage]
  simp only [hkind]

theorem leavesBelow_notLeaf {t : Btree size} {height n : Nat} {page : Page size}
    (hpage : t.pages[n]? = some page) (hkind : page.kind = .notLeaf) :
    leavesBelow t (height + 1) n =
      page.objects.flatMap fun o => leavesBelow t height (target o) := by
  rw [leavesBelow, hpage]
  simp only [hkind]

end Btree

namespace PageIterator

open Btree

variable {size : PageSize} {t : Btree size}

/-- The pages above a page, the last one first, with the positions of the pointers that lead to
it, and the leaves that come after those below it. -/
inductive Above (t : Btree size) :
    Nat → List Nat → List Nat → Nat → List (List PageObject) → Prop where
  | root : Above t maxPages [] [] t.rootPage []
  | page {height n i : Nat} {o : PageObject} {path depth : List Nat} {page : Page size}
      {rest : List (List PageObject)} (hpage : t.pages[n]? = some page)
      (hkind : page.kind = .notLeaf) (htree : ∀ o ∈ page.objects, IsTree t height (target o))
      (hpointer : page.objects[i]? = some o) (habove : Above t (height + 1) path depth n rest) :
      Above t height (n :: path) (i :: depth) (target o)
        (((page.objects.drop (i + 1)).flatMap fun o => leavesBelow t height (target o)) ++ rest)

theorem Above.height_le {height m : Nat} {path depth : List Nat} {rest : List (List PageObject)}
    (h : Above t height path depth m rest) : height ≤ maxPages := by
  induction h with
  | root => exact le_rfl
  | page _ _ _ _ _ ih => omega

/-- The leaves below and after a page are the last leaves of the tree. -/
theorem Above.leaves_eq {height m : Nat} {path depth : List Nat} {rest : List (List PageObject)}
    (h : Above t height path depth m rest) :
    ∃ before, t.leaves = before ++ (leavesBelow t height m ++ rest) := by
  induction h with
  | root => exact ⟨[], by rw [List.append_nil, List.nil_append, leaves]⟩
  | @page height n i o path depth page rest hpage hkind _ hpointer _ ih =>
      obtain ⟨before, hbefore⟩ := ih
      obtain ⟨hi, rfl⟩ := List.getElem?_eq_some_iff.mp hpointer
      refine ⟨before ++ (page.objects.take i).flatMap fun o => leavesBelow t height (target o), ?_⟩
      have hsplit : page.objects =
          page.objects.take i ++ page.objects[i] :: page.objects.drop (i + 1) := by
        rw [← List.drop_eq_getElem_cons hi, List.take_append_drop]
      rw [hbefore, leavesBelow_notLeaf hpage hkind]
      conv_lhs => rw [hsplit]
      simp only [List.flatMap_append, List.flatMap_cons, List.append_assoc]

theorem Above.root_notLeaf {height m : Nat} {path depth : List Nat}
    {rest : List (List PageObject)} (h : Above t height path depth m rest) (hne : path ≠ []) :
    ∃ page, t.pages[t.rootPage]? = some page ∧ page.kind = .notLeaf := by
  induction h with
  | root => exact absurd rfl hne
  | page hpage hkind _ _ habove ih =>
      cases habove with
      | root => exact ⟨_, hpage, hkind⟩
      | page => exact ih (List.cons_ne_nil _ _)

/-! ## The parents that were read -/

def objectsAt (t : Btree size) (n : Nat) : List PageObject :=
  match t.pages[n]? with
  | some page => page.objects
  | none => []

theorem objectsAt_eq {n : Nat} {page : Page size} (h : t.pages[n]? = some page) :
    objectsAt t n = page.objects := by
  rw [objectsAt, h]

/-- The objects of the first pages of the path. -/
def Cached (t : Btree size) (path : List Nat) (parents : List (List PageObject)) : Prop :=
  ∃ read, read <:+ path ∧ parents = read.map (objectsAt t)

theorem Cached.drop {n : Nat} {path : List Nat} {parents : List (List PageObject)}
    (h : Cached t (n :: path) parents) :
    Cached t path (parents.drop (parents.length - path.length)) := by
  obtain ⟨read, hsuffix, rfl⟩ := h
  refine ⟨read.drop (read.length - path.length), ?_, by simp⟩
  obtain rfl | hsuffix := List.suffix_cons_iff.mp hsuffix
  · simp
  · rw [Nat.sub_eq_zero_of_le hsuffix.length_le]
    exact hsuffix

theorem readParents_eq {path : List Nat} (hpages : ∀ n ∈ path, ∃ page, t.pages[n]? = some page)
    (hne : path ≠ []) {parents : List (List PageObject)} (h : Cached t path parents) :
    readParents t path (path.length - 1) parents = .ok () (path.map (objectsAt t)) := by
  obtain ⟨read, ⟨unread, hpath⟩, rfl⟩ := h
  have hpos := List.length_pos_iff.mpr hne
  have hlength := congrArg List.length hpath
  rw [List.length_append] at hlength
  induction hn : unread.length generalizing unread read with
  | zero =>
      obtain rfl := List.length_eq_zero_iff.mp hn
      rw [readParents, if_neg (by rw [List.length_map]; omega), ← hpath, List.nil_append]
  | succ k ih =>
      obtain ⟨unread, n, rfl⟩ := (List.eq_nil_or_concat' unread).resolve_left (by
        rintro rfl
        cases hn)
      obtain ⟨page, hpage⟩ := hpages n (by simp [← hpath])
      have hnext : path.reverse[(read.map (objectsAt t)).length]? = some n := by
        simp [← hpath]
      rw [readParents, if_pos (by rw [List.length_map]; omega), hnext, Option.bind_some, hpage]
      have hread : page.objects :: read.map (objectsAt t) = (n :: read).map (objectsAt t) := by
        rw [List.map_cons, objectsAt_eq hpage]
      simp only [hread]
      exact ih (n :: read) unread (by simpa using hpath) (by simp at hlength ⊢; omega)
        (by simpa using hn)

theorem Above.pages {height m : Nat} {path depth : List Nat} {rest : List (List PageObject)}
    (h : Above t height path depth m rest) : ∀ n ∈ path, ∃ page, t.pages[n]? = some page := by
  induction h with
  | root => simp
  | page hpage _ _ _ _ ih =>
      intro n hn
      obtain rfl | hn := List.mem_cons.mp hn
      · exact ⟨_, hpage⟩
      · exact ih n hn

/-! ## Climbing -/

/-- The last page of the path has a pointer at its position, to page `m`. -/
structure AtPointer (t : Btree size) (iter : PageIterator) (height m : Nat)
    (rest : List (List PageObject)) : Prop where
  path_ne : iter.path ≠ []
  tree : IsTree t height m
  above : Above t height iter.path iter.depthIterator m rest
  parents : iter.parents = iter.path.map (objectsAt t)

/-- Only the root is left, after its last pointer. -/
structure AtRoot (t : Btree size) (iter : PageIterator) (x : Nat) : Prop where
  path : iter.path = [t.rootPage]
  depthIterator : iter.depthIterator = [x]

theorem climb_of_parent {iter iter' : PageIterator} {objects : List PageObject}
    (hlong : ¬iter.path.length ≤ 1) (h : parent t iter.rollUp = .ok objects iter') :
    climb t iter = if iter'.position < objects.length then .ok true iter' else climb t iter' := by
  rw [climb, dif_neg hlong]
  split
  · next herror =>
      rw [h] at herror
      cases herror
  · next hparent =>
      rw [h] at hparent
      cases hparent
      rfl

theorem parent_rollUp {iter : PageIterator} {height m n i x : Nat} {path depth : List Nat}
    {rest : List (List PageObject)} (hpath : iter.path = m :: n :: path)
    (hdepth : iter.depthIterator = x :: i :: depth) (hcached : Cached t iter.path iter.parents)
    (habove : Above t height (n :: path) (i :: depth) m rest) :
    parent t iter.rollUp = .ok (objectsAt t n) { iter with
      path := n :: path
      depthIterator := (i + 1) :: depth
      parents := (n :: path).map (objectsAt t) } := by
  rw [hpath] at hcached
  have hread := readParents_eq habove.pages (by simp) hcached.drop
  have hroll : iter.rollUp = { iter with
      path := n :: path
      depthIterator := (i + 1) :: depth
      parents := iter.parents.drop (iter.parents.length - (n :: path).length) } := by
    simp [rollUp, hpath, hdepth]
  rw [hroll, parent]
  simp only [hread]
  rfl

/-- Either there is another pointer, to the next leaves, or no leaf is left. -/
theorem climb_eq {height m : Nat} {path depth : List Nat} {rest : List (List PageObject)}
    (habove : Above t height path depth m rest) {iter : PageIterator} {x : Nat}
    (hpath : iter.path = m :: path) (hdepth : iter.depthIterator = x :: depth)
    (hcached : Cached t iter.path iter.parents) :
    (∃ iter' height' m' rest', climb t iter = .ok true iter' ∧ iter'.max = iter.max ∧
      AtPointer t iter' height' m' rest' ∧ rest = leavesBelow t height' m' ++ rest') ∨
    (rest = [] ∧ ∃ iter', climb t iter = .ok false iter' ∧ iter'.max = iter.max ∧
      iter'.objects = iter.objects ∧
      AtRoot t iter' (if path = [] then x else (objectsAt t t.rootPage).length)) := by
  induction habove generalizing iter x with
  | root =>
      refine .inr ⟨rfl, iter, ?_, rfl, rfl, hpath, hdepth⟩
      rw [climb, dif_pos (by simp [hpath])]
  | @page height n i o path depth page rest hpage hkind htree hpointer habove ih =>
      have hparent := parent_rollUp hpath hdepth hcached
        (Above.page hpage hkind htree hpointer habove)
      obtain ⟨iter1, hiter1⟩ : ∃ iter1 : PageIterator, iter1 = { iter with
          path := n :: path
          depthIterator := (i + 1) :: depth
          parents := (n :: path).map (objectsAt t) } := ⟨_, rfl⟩
      rw [← hiter1] at hparent
      have hclimb := climb_of_parent (by simp [hpath]) hparent
      have hposition : iter1.position = i + 1 := by
        rw [hiter1]
        rfl
      rw [objectsAt_eq hpage, hposition] at hclimb
      rw [hclimb]
      by_cases hi : i + 1 < page.objects.length
      · left
        rw [if_pos hi, List.drop_eq_getElem_cons hi, List.flatMap_cons, List.append_assoc]
        have hnext := List.getElem?_eq_getElem hi
        refine ⟨iter1, height, target page.objects[i + 1], _, rfl, by rw [hiter1], ?_, rfl⟩
        rw [hiter1]
        exact ⟨by simp, htree _ (List.getElem_mem hi), .page hpage hkind htree hnext habove, rfl⟩
      · have hdone : page.objects.drop (i + 1) = [] := List.drop_eq_nil_of_le (by omega)
        have hcached1 : Cached t iter1.path iter1.parents := by
          rw [hiter1]
          exact ⟨n :: path, List.suffix_rfl, rfl⟩
        have hrest := ih (by rw [hiter1]) (x := i + 1) (by rw [hiter1]) hcached1
        rw [if_neg hi, hdone, List.flatMap_nil, List.nil_append]
        have hmax : iter1.max = iter.max := by rw [hiter1]
        have hobjects : iter1.objects = iter.objects := by rw [hiter1]
        rw [hmax, hobjects] at hrest
        refine hrest.imp_right fun ⟨hnil, iter', hiter', hmax', hobjects', hroot⟩ =>
          ⟨hnil, iter', hiter', hmax', hobjects', ?_⟩
        -- The root is the page that was climbed to, or a page above it.
        rw [if_neg (List.cons_ne_nil n path)]
        cases habove with
        | root =>
            obtain ⟨hpage', hlast⟩ := List.getElem?_eq_some_iff.mp hpointer
            rw [objectsAt_eq hpage]
            have hlength : page.objects.length = i + 1 := by omega
            rwa [if_pos rfl, ← hlength] at hroot
        | page => rwa [if_neg (List.cons_ne_nil _ _)] at hroot

/-! ## Going down -/

/-- The last page of the path is a leaf, which has the objects. -/
structure AtLeaf (t : Btree size) (iter : PageIterator) (rest : List (List PageObject)) :
    Prop where
  exists_above : ∃ height m x path depth, iter.path = m :: path ∧ iter.depthIterator = x :: depth ∧
    Above t (height + 1) path depth m rest ∧
    ∃ page, t.pages[m]? = some page ∧ page.kind = .leaf ∧ page.objects = iter.objects
  cached : Cached t iter.path iter.parents

theorem readLast_leaf {iter : PageIterator} {m : Nat} {path : List Nat} {page : Page size}
    (hpath : iter.path = m :: path) (hparents : iter.parents = path.map (objectsAt t))
    (hpage : t.pages[m]? = some page) (hkind : page.kind = .leaf) :
    readLast t iter = .ok true { iter with objects := page.objects } := by
  rw [readLast, if_pos (by simp [hpath, hparents]), hpath, List.head?_cons, Option.bind_some,
    hpage]
  simp only [hkind]

theorem readLast_notLeaf {iter : PageIterator} {m : Nat} {path : List Nat} {page : Page size}
    (hpath : iter.path = m :: path) (hparents : iter.parents = path.map (objectsAt t))
    (hpage : t.pages[m]? = some page) (hkind : page.kind = .notLeaf) :
    readLast t iter = .ok false { iter with parents := (m :: path).map (objectsAt t) } := by
  rw [readLast, if_pos (by simp [hpath, hparents]), hpath, List.head?_cons, Option.bind_some,
    hpage]
  simp only [hkind, hparents, List.map_cons, objectsAt_eq hpage]

/-- Goes down to the first leaf of the page. -/
theorem descend_eq {height m fuel : Nat} {path depth : List Nat} {rest : List (List PageObject)}
    (habove : Above t height path depth m rest) (htree : IsTree t height m) {iter : PageIterator}
    (hpath : iter.path = m :: path) (hdepth : iter.depthIterator = 0 :: depth)
    (hparents : iter.parents = path.map (objectsAt t)) (hfuel : height ≤ fuel) :
    ∃ iter' rest', descend t fuel iter = .ok () iter' ∧ iter'.max = iter.max ∧
      AtLeaf t iter' rest' ∧ iter'.position = 0 ∧
      leavesBelow t height m ++ rest = iter'.objects :: rest' := by
  induction height generalizing m fuel path depth rest iter with
  | zero => exact htree.elim
  | succ height ih =>
      obtain ⟨page, hpage, hbelow⟩ := htree
      obtain ⟨fuel, rfl⟩ : ∃ k, fuel = k + 1 := ⟨fuel - 1, by omega⟩
      rw [descend]
      cases hkind : page.kind with
      | leaf =>
          rw [readLast_leaf hpath hparents hpage hkind]
          refine ⟨_, rest, rfl, rfl, ⟨⟨_, m, 0, path, depth, hpath, hdepth, habove, page, hpage,
            hkind, rfl⟩, ?_⟩, ?_, ?_⟩
          · simp only [hpath, hparents]
            exact ⟨path, List.suffix_cons m path, rfl⟩
          · simp [position, hdepth]
          · rw [leavesBelow_leaf hpage hkind]
            rfl
      | notLeaf =>
          obtain ⟨hne, htrees⟩ := hbelow hkind
          obtain ⟨o, objects, hobjects⟩ := List.exists_cons_of_ne_nil hne
          rw [readLast_notLeaf hpath hparents hpage hkind]
          have hfirst : page.objects[0]? = some o := by
            rw [hobjects]
            rfl
          have hpointer : (((m :: path).map (objectsAt t)).head?.bind fun objects =>
              objects[iter.position]?) = some o := by
            simpa [position, hdepth, objectsAt_eq hpage] using hfirst
          simp only [position] at hpointer ⊢
          simp only [hpointer]
          have habove' := Above.page hpage hkind htrees hfirst habove
          obtain ⟨iter1, hiter1⟩ : ∃ iter1 : PageIterator, iter1 = { iter with
              path := target o :: m :: path
              depthIterator := 0 :: 0 :: depth
              parents := (m :: path).map (objectsAt t) } := ⟨_, rfl⟩
          obtain ⟨iter', rest', hdescend, hmax, hleaf, hposition, hleaves⟩ :=
            @ih _ fuel _ _ _ habove' (htrees o (by simp [hobjects])) iter1 (by rw [hiter1])
              (by rw [hiter1]) (by rw [hiter1]) (by omega)
          refine ⟨iter', rest', ?_, by rw [hmax, hiter1], hleaf, hposition, ?_⟩
          · rw [← hdescend, hiter1]
            simp only [hpath, hdepth]
          · rw [← hleaves, leavesBelow_notLeaf hpage hkind, hobjects, Nat.zero_add,
              List.flatMap_cons, List.append_assoc]
            rfl

/-! ## The next leaf -/

/-- The objects from the position on. -/
def remaining (iter : PageIterator) (rest : List (List PageObject)) : List PageObject :=
  iter.objects.drop iter.position ++ rest.flatten

theorem AtLeaf.leaves_eq {iter : PageIterator} {rest : List (List PageObject)}
    (h : AtLeaf t iter rest) : ∃ before, t.leaves = before ++ (iter.objects :: rest) := by
  obtain ⟨height, m, x, path, depth, -, -, habove, page, hpage, hkind, hobjects⟩ := h.exists_above
  obtain ⟨before, hbefore⟩ := habove.leaves_eq
  rw [leavesBelow_leaf hpage hkind, hobjects] at hbefore
  exact ⟨before, hbefore⟩

/-- Goes down from the pointer at the position. -/
theorem exists_descend {iter : PageIterator} {height m : Nat} {rest : List (List PageObject)}
    (h : AtPointer t iter height m rest) : ∃ iter' rest', descend t maxPages iter = .ok () iter' ∧
      iter'.max = iter.max ∧ AtLeaf t iter' rest' ∧ iter'.position = 0 ∧
      leavesBelow t height m ++ rest = iter'.objects :: rest' := by
  obtain ⟨hne, htree, habove, hparents⟩ := h
  obtain ⟨min, max, objects, path, depth, parents, err⟩ := iter
  dsimp only at hne habove hparents
  have habove' := habove
  cases habove with
  | root => exact absurd rfl hne
  | @page _ n i o path depth page rest hpage _ _ hpointer hup =>
      have hfuel : maxPages = (maxPages - 1) + 1 := rfl
      have hread : ∀ iter : PageIterator, iter.path = n :: path →
          iter.parents = (n :: path).map (objectsAt t) → readLast t iter = .ok false iter := by
        intro iter hpath hparents
        rw [readLast, if_neg (by simp [hpath, hparents])]
      rw [hfuel, descend, hread _ rfl hparents]
      have hhead : (parents.head?.bind fun objects => objects[i]?) = some o := by
        simpa [hparents, objectsAt_eq hpage] using hpointer
      simp only [position, List.headD_cons, hhead]
      have hheight := hup.height_le
      obtain ⟨iter', rest', hdescend, hmax, hleaf⟩ := @descend_eq _ t _ _ (maxPages - 1) _ _ _
        habove' htree ⟨min, max, objects, _, _, parents, err⟩ rfl rfl hparents (by omega)
      exact ⟨iter', rest', hdescend, hmax, hleaf⟩

/-- Only the root is left, and its position is used for the objects of the last leaf. -/
def AtEnd (t : Btree size) (iter : PageIterator) (objects : List PageObject) : Prop :=
  ∃ x, AtRoot t iter x ∧ objects = iter.objects.drop x

theorem AtLeaf.atEnd {iter iter' : PageIterator} (h : AtLeaf t iter [])
    (hdone : iter.objects.length ≤ iter.position) {path : List Nat} (hpath : iter.path.tail = path)
    (hobjects : iter'.objects = iter.objects)
    (hroot : AtRoot t iter' (if path = [] then iter.position
      else (objectsAt t t.rootPage).length)) : AtEnd t iter' t.repeated := by
  obtain ⟨before, hleaves⟩ := h.leaves_eq
  obtain ⟨height, m, x, path', depth, hpath', -, habove, page, hpage, hkind, -⟩ := h.exists_above
  refine ⟨_, hroot, ?_⟩
  obtain rfl : path = path' := by rw [← hpath, hpath', List.tail_cons]
  split_ifs with hnil
  · subst hnil
    rw [hobjects, List.drop_of_length_le hdone]
    cases habove with
    | root => rw [repeated, hpage]; simp only [hkind]
  · obtain ⟨root, hpage', hkind'⟩ := habove.root_notLeaf hnil
    rw [hobjects, repeated, hpage', objectsAt_eq hpage', hleaves]
    simp [hkind']

theorem exists_skipPages {rest : List (List PageObject)} {iter : PageIterator}
    (h : AtLeaf t iter rest) : ∃ fuel isFound iter',
      skipPages t fuel iter = some (.ok isFound iter') ∧ iter'.max = iter.max ∧
      ((isFound = false ∧ iter.remaining rest = [] ∧ AtEnd t iter' t.repeated) ∨
        (isFound = true ∧ iter'.position < iter'.objects.length ∧ ∃ rest', AtLeaf t iter' rest' ∧
          iter.remaining rest = iter'.remaining rest')) := by
  induction hn : rest.length using Nat.strong_induction_on generalizing rest iter with
  | _ n ih =>
      by_cases hdone : iter.position < iter.objects.length
      · refine ⟨0, true, iter, ?_, rfl, .inr ⟨rfl, hdone, rest, h, rfl⟩⟩
        rw [skipPages, if_pos hdone]
      obtain ⟨height, m, x, path, depth, hpath, hdepth, habove, -⟩ := h.exists_above
      have hposition : iter.position = x := by rw [position, hdepth, List.headD_cons]
      have hskipped : iter.objects.drop iter.position = [] :=
        List.drop_of_length_le (by omega)
      obtain ⟨iter1, height', m', rest', hclimb, hmax, hpointer, hrest⟩ |
        ⟨hnil, iter1, hclimb, hmax, hobjects, hroot⟩ := climb_eq habove hpath hdepth h.cached
      · obtain ⟨iter2, rest2, hdescend, hmax2, hleaf, hposition2, hleaves⟩ :=
          exists_descend hpointer
        rw [← hrest] at hleaves
        obtain ⟨fuel, isFound, iter3, hskip, hmax3, hresult⟩ := ih rest2.length
          (by rw [← hn, hleaves]; simp) hleaf rfl
        have hremaining : iter.remaining rest = iter2.remaining rest2 := by
          rw [remaining, hskipped, remaining, hposition2, hleaves]
          simp
        refine ⟨fuel + 1, isFound, iter3, ?_, by rw [hmax3, hmax2, hmax], hremaining ▸ hresult⟩
        rw [skipPages, if_neg hdone, hclimb]
        simp only [hdescend]
        exact hskip
      · subst hnil
        rw [← hposition] at hroot
        refine ⟨0, false, iter1, ?_, hmax, .inl ⟨rfl, ?_, ?_⟩⟩
        · rw [skipPages, if_neg hdone, hclimb]
        · rw [remaining, hskipped]
          rfl
        · exact h.atEnd (by omega) (by rw [hpath, List.tail_cons]) hobjects hroot

end PageIterator

end Vsql
