import Mathlib.Data.List.Range
import Vsql.Btree.Leaves

/-!
# The objects of a B-tree

What a tree stores is the objects of its leaves.  Splitting pages and changing pointers
moves objects to other leaves, but an addition only adds the new object.
-/

namespace Vsql.Btree

open Foundation StateError

variable {size : PageSize}

def leafObjectsOf (pages : List (Page size)) : List PageObject :=
  pages.flatMap fun page => if page.kind = .leaf then page.objects else []

def leafObjects (t : Btree size) : List PageObject := leafObjectsOf t.pages

@[simp] theorem leafObjectsOf_nil : leafObjectsOf ([] : List (Page size)) = [] := rfl

@[simp] theorem leafObjectsOf_cons (page : Page size) (pages : List (Page size)) :
    leafObjectsOf (page :: pages) =
      (if page.kind = .leaf then page.objects else []) ++ leafObjectsOf pages :=
  List.flatMap_cons

@[simp] theorem leafObjectsOf_append (first second : List (Page size)) :
    leafObjectsOf (first ++ second) = leafObjectsOf first ++ leafObjectsOf second :=
  List.flatMap_append

theorem leafObjectsOf_perm {first second : List (Page size)} (h : first.Perm second) :
    (leafObjectsOf first).Perm (leafObjectsOf second) := h.flatMap_right _

theorem mem_leafObjects {t : Btree size} {o : PageObject} :
    o ∈ leafObjects t ↔ ∃ (n : Nat) (page : Page size), t.pages[n]? = some page ∧
      page.kind = .leaf ∧ o ∈ page.objects := by
  unfold leafObjects leafObjectsOf
  rw [List.mem_flatMap]
  constructor
  · rintro ⟨page, hpage, ho⟩
    obtain ⟨n, hn⟩ := List.mem_iff_getElem?.mp hpage
    split at ho
    · next hkind => exact ⟨n, page, hn, hkind, ho⟩
    · cases ho
  · rintro ⟨n, page, hpage, hkind, ho⟩
    exact ⟨page, List.mem_of_getElem? hpage, by rwa [if_pos hkind]⟩

/-- The versions of a key that only one leaf has. -/
theorem versionsOf_leafObjects {t : Btree size} {n : Nat} {page : Page size} {key : Bytes}
    (hpage : t.pages[n]? = some page) (hkind : page.kind = .leaf)
    (hothers : ∀ (m : Nat) (leaf : Page size), t.pages[m]? = some leaf → leaf.kind = .leaf →
      ∀ o ∈ leaf.objects, o.key = key → m = n) :
    versionsOf key (leafObjects t) = versionsOf key page.objects := by
  obtain ⟨hn, rfl⟩ := List.getElem?_eq_some_iff.mp hpage
  have hsplit : t.pages = t.pages.take n ++ t.pages[n] :: t.pages.drop (n + 1) := by
    rw [← List.drop_eq_getElem_cons hn, List.take_append_drop]
  have hnone : ∀ pages : List (Page size), (∀ leaf ∈ pages, ∃ m, m ≠ n ∧ t.pages[m]? = some leaf) →
      versionsOf key (leafObjectsOf pages) = [] := by
    intro pages hpages
    refine List.filter_eq_nil_iff.mpr fun o ho => ?_
    obtain ⟨leaf, hleaf, ho⟩ := List.mem_flatMap.mp ho
    obtain ⟨m, hm, hstored⟩ := hpages leaf hleaf
    split at ho
    · next hleafKind =>
        rw [decide_eq_true_iff]
        exact fun hkey => hm (hothers m leaf hstored hleafKind o ho hkey)
    · cases ho
  rw [leafObjects]
  conv_lhs => rw [hsplit]
  rw [leafObjectsOf_append, leafObjectsOf_cons, if_pos hkind, versionsOf_append, versionsOf_append,
    hnone, hnone, List.nil_append, List.append_nil]
  · intro leaf hleaf
    obtain ⟨i, hi⟩ := List.mem_iff_getElem?.mp hleaf
    rw [List.getElem?_drop] at hi
    exact ⟨_, by omega, hi⟩
  · intro leaf hleaf
    obtain ⟨i, hi⟩ := List.mem_iff_getElem?.mp hleaf
    rw [List.getElem?_take] at hi
    split at hi
    · exact ⟨i, by omega, hi⟩
    · cases hi

/-! ## One leaf -/

/-- The objects of all the leaves but one. -/
def otherObjects (t : Btree size) (n : Nat) : List PageObject := leafObjectsOf (t.pages.eraseIdx n)

theorem mem_otherObjects {t : Btree size} {n : Nat} {o : PageObject} (h : o ∈ otherObjects t n) :
    ∃ (m : Nat) (page : Page size), m ≠ n ∧ t.pages[m]? = some page ∧ page.kind = .leaf ∧
      o ∈ page.objects := by
  obtain ⟨m, page, hpage, hkind, ho⟩ := (@mem_leafObjects _ { t with
    pages := t.pages.eraseIdx n } o).mp h
  simp only [List.getElem?_eraseIdx] at hpage
  split at hpage
  · exact ⟨m, page, by omega, hpage, hkind, ho⟩
  · exact ⟨m + 1, page, by omega, hpage, hkind, ho⟩

theorem leafObjects_perm {t : Btree size} {n : Nat} {page : Page size}
    (hpage : t.pages[n]? = some page) (hkind : page.kind = .leaf) :
    (leafObjects t).Perm (page.objects ++ otherObjects t n) := by
  obtain ⟨hn, rfl⟩ := List.getElem?_eq_some_iff.mp hpage
  have hperm := leafObjectsOf_perm (List.getElem_cons_eraseIdx_perm hn)
  rw [leafObjectsOf_cons, if_pos hkind] at hperm
  exact hperm.symm

theorem leafObjects_set {t t' : Btree size} {n : Nat} {page : Page size} (hn : n < t.pages.length)
    (hkind : page.kind = .leaf) (h : t'.pages = t.pages.set n page) :
    (leafObjects t').Perm (page.objects ++ otherObjects t n) := by
  have hperm := leafObjectsOf_perm (List.set_perm_cons_eraseIdx hn page)
  rw [leafObjectsOf_cons, if_pos hkind] at hperm
  rw [leafObjects, h]
  exact hperm

/-! ## Pages above -/

theorem leafObjects_eq {t : Btree size} {bound : Nat} (h : t.pages.length ≤ bound) :
    leafObjects t = (List.range bound).flatMap fun n => (leafAt t n).getD [] := by
  obtain ⟨pages, rootPage, writtenPages⟩ := t
  simp only [leafObjects, leafObjectsOf, leafAt] at h ⊢
  induction pages generalizing bound with
  | nil => simp
  | cons page pages ih =>
      obtain ⟨bound, rfl⟩ : ∃ b, bound = b + 1 := ⟨bound - 1, by simp at h; omega⟩
      rw [List.range_succ_eq_map, List.flatMap_cons, List.flatMap_cons, List.flatMap_map,
        ih (by simpa using h)]
      congr 1
      by_cases hkind : page.kind = .leaf <;> simp [hkind]

theorem OnlyInner.leafObjects {t t' : Btree size} (h : OnlyInner t t') :
    leafObjects t' = leafObjects t := by
  rw [leafObjects_eq (le_max_left t'.pages.length t.pages.length),
    leafObjects_eq (le_max_right t'.pages.length t.pages.length)]
  simp only [h.leaf]

/-! ## Additions -/

theorem storeGroups_leafObjects {n : Nat} {page : Page size} {objects : List PageObject}
    {t t' : Btree size} {numbers : List Nat} (hpage : t.pages[n]? = some page)
    (h : storeGroups .leaf n (splitObjects size objects) t = .ok numbers t') :
    (leafObjects t').Perm (objects ++ otherObjects t n) := by
  obtain ⟨first, others, hgroups, hpages, -, -⟩ :=
    storeGroups_ok h (splitObjectsInto_ne_nil _ _ _)
  have hbuilt : ∀ {groups : List (List PageObject)} {pages : List (Page size)},
      List.Forall₂ (fun group page => buildPage .leaf group = .ok page) groups pages →
      (leafObjectsOf pages).Perm groups.flatten := by
    intro groups pages hgroups
    induction hgroups with
    | nil => rfl
    | cons hbuild _ ih =>
        obtain ⟨hkind, hperm⟩ := buildPage_ok hbuild
        rw [leafObjectsOf_cons, if_pos hkind, List.flatten_cons]
        exact hperm.append ih
  have hn := (List.getElem?_eq_some_iff.mp hpage).1
  have hperm := hbuilt hgroups
  rw [splitObjects_flatten] at hperm
  have hset : (t.pages.set n first ++ others).Perm (first :: others ++ t.pages.eraseIdx n) :=
    ((List.set_perm_cons_eraseIdx hn first).append_right others).trans
      (List.perm_append_comm.cons first)
  have hleaves := leafObjectsOf_perm hset
  rw [leafObjectsOf_append (first :: others)] at hleaves
  rw [leafObjects, hpages]
  exact hleaves.trans (hperm.append_right _)

theorem splitPage_leafObjects {fuel : Nat} {path : List Nat} {n : Nat} {page : Page size}
    {obj : PageObject} {t t' : Btree size} (hpath : LeafPath t path n page)
    (h : splitPage fuel path page obj .leaf t = .ok () t') :
    (leafObjects t').Perm (obj :: leafObjects t) := by
  cases fuel with
  | zero => cases h
  | succ fuel =>
      obtain ⟨left, v, hrun, hmore⟩ := bind_eq_ok.mp h
      obtain ⟨hlast, rfl⟩ := lastPage_eq_ok.mp hrun
      obtain rfl : n = left := Option.some.inj (hpath.last.symm.trans hlast)
      obtain ⟨numbers, w, hstore, hmore⟩ := bind_eq_ok.mp hmore
      have hinner := storeGroups_inner hpath.stored hpath.kind hstore hpath.inner
      have honly : OnlyInner w t' := by
        split at hmore
        · exact newRoot_onlyInner hmore
        · exact linkSplit_onlyInner (splitPage_onlyInner _) hmore hinner
      rw [honly.leafObjects]
      refine (storeGroups_leafObjects hpath.stored hstore).trans ?_
      refine ((insertObject_perm obj page.objects).append_right _).trans ?_
      exact ((leafObjects_perm hpath.stored hpath.kind).symm.cons obj)

theorem addSmall_leafObjects {obj : PageObject} {r : Nat} {t t' : Btree size}
    (h : addSmall obj t = .ok r t') : (leafObjects t').Perm (obj :: leafObjects t) := by
  have hrest : ∀ {k : Nat} {u v : Btree size} {next},
      (leafObjects u).Perm (obj :: leafObjects t) → (searchPage obj.key >>= next) u = .ok r v →
      (∀ path depthIterator, next (path, depthIterator) = do
        fixParentPages path
        pure k) → (leafObjects v).Perm (obj :: leafObjects t) := by
    intro k u v next hperm hrun hnext
    obtain ⟨⟨path, depthIterator⟩, w, hsearch, hrun⟩ := bind_eq_ok.mp hrun
    obtain ⟨rfl, leaf, page, hpath⟩ := searchPage_ok hsearch
    rw [hnext] at hrun
    obtain ⟨_, x, hfix, hlast⟩ := bind_eq_ok.mp hrun
    obtain ⟨-, rfl⟩ := pure_eq_ok.mp hlast
    rwa [(fixParentPages_onlyInner hpath hfix).leafObjects]
  obtain ⟨total, u, htotal, hnext⟩ := bind_eq_ok.mp h
  obtain ⟨rfl, rfl⟩ := totalPages_eq_ok.mp htotal
  split at hnext
  · next hempty =>
      obtain ⟨page, u, hrun, hnext⟩ := bind_eq_ok.mp hnext
      obtain ⟨hadd, rfl⟩ := ofExcept_eq_ok.mp hrun
      obtain ⟨n, v, happend, hnext⟩ := bind_eq_ok.mp hnext
      obtain ⟨-, rfl, rfl⟩ := appendPage_eq_ok.mp happend
      obtain ⟨_, w, hroot, hlast⟩ := bind_eq_ok.mp hnext
      obtain ⟨-, rfl⟩ := pure_eq_ok.mp hlast
      have heq := setRootPage_eq_ok.mp hroot
      subst heq
      have hnil : t.pages = [] := List.length_eq_zero_iff.mp hempty
      obtain ⟨hkind, hobjects⟩ := kind_add hadd
      change (leafObjectsOf (t.pages ++ [page])).Perm (obj :: leafObjectsOf t.pages)
      rw [hnil, List.nil_append, leafObjectsOf_cons, if_pos (show page.kind = .leaf from hkind),
        hobjects]
      simpa [Page.new] using sortObjects_perm [obj]
  · obtain ⟨path, depthIterator, n, page, hsearch, hpath, hnext⟩ :=
      searchLeaf_ok hnext fun _ _ => rfl
    split at hnext
    · obtain ⟨page', u, hrun, hnext⟩ := bind_eq_ok.mp hnext
      obtain ⟨hadd, rfl⟩ := ofExcept_eq_ok.mp hrun
      obtain ⟨_, v, hstore, hnext⟩ := bind_eq_ok.mp hnext
      refine hrest ?_ hnext fun _ _ => rfl
      obtain rfl := storePage_eq_ok.mp hstore
      obtain ⟨hkind, hobjects⟩ := kind_add hadd
      have hn := (List.getElem?_eq_some_iff.mp hpath.stored).1
      refine (leafObjects_set hn (hkind.trans hpath.kind) rfl).trans ?_
      rw [hobjects]
      refine ((sortObjects_perm _).append_right _).trans ?_
      rw [List.append_assoc, List.singleton_append]
      exact List.perm_middle.trans ((leafObjects_perm hpath.stored hpath.kind).symm.cons obj)
    · obtain ⟨_, u, hsplit, hnext⟩ := bind_eq_ok.mp hnext
      exact hrest (splitPage_leafObjects hpath hsplit) hnext fun _ _ => rfl

theorem addPieces_leafObjects {objects : List PageObject} {r : Nat} {t t' : Btree size}
    (h : addPieces objects t = .ok r t') : (leafObjects t').Perm (objects ++ leafObjects t) := by
  induction objects generalizing t with
  | nil => cases h
  | cons obj others ih =>
      cases others with
      | nil => exact addSmall_leafObjects h
      | cons next others =>
          obtain ⟨_, u, hrun, hmore⟩ := bind_eq_ok.mp h
          obtain ⟨_, v, hfirst, hlast⟩ := bind_eq_ok.mp hrun
          obtain ⟨-, rfl⟩ := pure_eq_ok.mp hlast
          refine (ih hmore).trans ?_
          exact ((addSmall_leafObjects hfirst).append_left _).trans List.perm_middle

theorem add_leafObjects {obj : PageObject} {r : Nat} {t t' : Btree size}
    (h : add obj t = .ok r t') : ∃ objects, pieces size obj = .ok objects ∧
      (leafObjects t').Perm (objects ++ leafObjects t) := by
  obtain ⟨objects, u, hrun, hadd⟩ := bind_eq_ok.mp h
  obtain ⟨hpieces, rfl⟩ := ofExcept_eq_ok.mp hrun
  exact ⟨objects, hpieces, addPieces_leafObjects hadd⟩

end Vsql.Btree
