import Vsql.Btree.Footprint

/-!
# Where the objects of the leaves are

Only a leaf can be given new objects: the leaf that a key leads to, or the
pages that this leaf is split into.  Everything else that an operation does is
above the leaves, or removes or expires objects where they are.
-/

namespace Vsql.Btree

open Foundation StateError

variable {size : PageSize}

/-! ## Changes above the leaves -/

structure OnlyInner (t t' : Btree size) : Prop where
  leaf : ∀ n, leafAt t' n = leafAt t n
  inner : ∀ n, InnerAt t n → InnerAt t' n

def Inner (t : Btree size) (path : List Nat) : Prop := ∀ n ∈ path, InnerAt t n

theorem LeafPath.inner_dropLast {t : Btree size} {path : List Nat} {n : Nat}
    {page : Page size} (h : LeafPath t path n page) : Inner t path.dropLast :=
  h.inner

theorem pathAgain_ok {key : Bytes} {n : Nat} {t t' : Btree size}
    {path : List Nat} (h : pathAgain key n t = .ok path t') :
    t = t' ∧ Inner t path.dropLast := by
  obtain ⟨⟨searchPath, depthIterator⟩, u, hsearch, hrest⟩ := bind_eq_ok.mp h
  obtain ⟨rfl, leaf, page, hpath⟩ := searchPage_ok hsearch
  cases hindex : searchPath.findIdx? (· = n) with
  | none =>
      simp only [hindex] at hrest
      cases hrest
  | some position =>
      cases position with
      | zero =>
          simp only [hindex] at hrest
          cases hrest
      | succ index =>
          simp only [hindex, pure_eq_ok] at hrest
          obtain ⟨rfl, rfl⟩ := hrest
          obtain ⟨hlt, -⟩ := List.findIdx?_eq_some_iff_getElem.mp hindex
          refine ⟨rfl, fun m hm => hpath.inner m ?_⟩
          rw [List.dropLast_eq_take, List.take_take, List.length_take] at hm
          rw [List.dropLast_eq_take]
          exact List.take_subset_take_left _ (by simp only; omega) hm

namespace OnlyInner

theorem refl (t : Btree size) : OnlyInner t t := ⟨fun _ => rfl, fun _ h => h⟩

theorem trans {t u v : Btree size} (first : OnlyInner t u)
    (second : OnlyInner u v) : OnlyInner t v :=
  ⟨fun n => (second.leaf n).trans (first.leaf n),
    fun n h => second.inner n (first.inner n h)⟩

theorem path {t t' : Btree size} (h : OnlyInner t t') {path : List Nat}
    (hpath : Inner t path) : Inner t' path :=
  fun n hn => h.inner n (hpath n hn)

theorem storePage {t t' : Btree size} {n : Nat} {page : Page size} {u : Unit}
    (h : storePage n page t = .ok u t') (hn : InnerAt t n)
    (hkind : page.kind = .notLeaf) : OnlyInner t t' := by
  obtain rfl := storePage_eq_ok.mp h
  obtain ⟨old, hold, holdKind⟩ := hn
  have hlt : n < t.pages.length := (List.getElem?_eq_some_iff.mp hold).1
  constructor
  · intro m
    by_cases hm : n = m
    · subst hm
      rw [leafAt_eq_none_of_inner ⟨old, hold, holdKind⟩,
        leafAt_eq_none_of_inner ⟨page, by simp [hlt], hkind⟩]
    · simp [leafAt, List.getElem?_set_ne hm]
  · rintro m ⟨page', hpage', hkind'⟩
    by_cases hm : n = m
    · subst hm
      exact ⟨page, by simp [hlt], hkind⟩
    · exact ⟨page', by simpa [List.getElem?_set_ne hm] using hpage', hkind'⟩

theorem appendPage {t t' : Btree size} {n : Nat} {page : Page size}
    (h : appendPage page t = .ok n t') (hkind : page.kind = .notLeaf) :
    OnlyInner t t' := by
  obtain ⟨-, -, rfl⟩ := appendPage_eq_ok.mp h
  constructor
  · intro m
    rcases Nat.lt_trichotomy m t.pages.length with hlt | rfl | hgt
    · simp [leafAt, List.getElem?_append_left hlt]
    · simp [leafAt, hkind]
    · simp [leafAt, List.getElem?_eq_none (Nat.le_of_lt hgt),
        List.getElem?_eq_none (l := t.pages ++ [page]) (i := m) (by simp; omega)]
  · rintro m ⟨page', hpage', hkind'⟩
    have hlt : m < t.pages.length := (List.getElem?_eq_some_iff.mp hpage').1
    exact ⟨page', by simpa [List.getElem?_append_left hlt] using hpage', hkind'⟩

end OnlyInner

theorem kind_add {p p' : Page size} {obj : PageObject} (h : p.add obj = .ok p') :
    p'.kind = p.kind ∧ p'.objects = sortObjects (p.objects ++ [obj]) := by
  unfold Page.add at h
  split at h
  · split at h
    · cases h
    · cases h
      exact ⟨rfl, rfl⟩
  · cases h

theorem buildPage_ok {kind : PageKind} {objects : List PageObject}
    {page : Page size} (h : buildPage kind objects = .ok page) :
    page.kind = kind ∧ page.objects.Perm objects := by
  have hfold : ∀ (objects : List PageObject) (start page : Page size),
      objects.foldlM (fun page o => page.add o) start = .ok page →
        page.kind = start.kind ∧ page.objects.Perm (start.objects ++ objects) := by
    intro objects
    induction objects with
    | nil =>
        rintro start page h
        cases h
        simp
    | cons o objects ih =>
        intro start page h
        rw [List.foldlM_cons] at h
        cases hadd : start.add o with
        | error e =>
            rw [hadd] at h
            cases h
        | ok next =>
            rw [hadd] at h
            obtain ⟨hkind, hobjects⟩ := kind_add hadd
            obtain ⟨hkind', hperm⟩ := ih next page h
            refine ⟨hkind'.trans hkind, hperm.trans ?_⟩
            rw [hobjects]
            exact ((sortObjects_perm _).append_right objects).trans (by simp)
  exact hfold objects (Page.new kind) page h

theorem appendGroups_ok {kind : PageKind} {groups : List (List PageObject)}
    {t t' : Btree size} {numbers : List Nat}
    (h : appendGroups kind groups t = .ok numbers t') :
    ∃ pages, List.Forall₂ (fun group page => buildPage kind group = .ok page)
        groups pages ∧
      t'.pages = t.pages ++ pages ∧ t'.rootPage = t.rootPage ∧
      numbers = List.range' t.pages.length groups.length := by
  induction groups generalizing t numbers with
  | nil =>
      obtain ⟨rfl, rfl⟩ := pure_eq_ok.mp h
      exact ⟨[], .nil, by simp, rfl, rfl⟩
  | cons group groups ih =>
      obtain ⟨page, u, hfirst, hrest⟩ := bind_eq_ok.mp h
      obtain ⟨hbuild, rfl⟩ := ofExcept_eq_ok.mp hfirst
      obtain ⟨n, v, happend, hrest⟩ := bind_eq_ok.mp hrest
      obtain ⟨-, rfl, rfl⟩ := appendPage_eq_ok.mp happend
      obtain ⟨rest, w, hothers, hlast⟩ := bind_eq_ok.mp hrest
      obtain ⟨rfl, rfl⟩ := pure_eq_ok.mp hlast
      obtain ⟨pages, hpages, heq, hroot, rfl⟩ := ih hothers
      refine ⟨page :: pages, .cons hbuild hpages, ?_, hroot, ?_⟩
      · simp [heq]
      · simp [List.range'_succ]

theorem storeGroups_ok {kind : PageKind} {n : Nat}
    {groups : List (List PageObject)} {t t' : Btree size} {numbers : List Nat}
    (h : storeGroups kind n groups t = .ok numbers t') (hgroups : groups ≠ []) :
    ∃ page pages, List.Forall₂ (fun group page => buildPage kind group = .ok page)
        groups (page :: pages) ∧
      t'.pages = t.pages.set n page ++ pages ∧ t'.rootPage = t.rootPage ∧
      numbers = n :: List.range' t.pages.length (groups.length - 1) := by
  cases groups with
  | nil => exact absurd rfl hgroups
  | cons group groups =>
      obtain ⟨page, u, hfirst, hrest⟩ := bind_eq_ok.mp h
      obtain ⟨hbuild, rfl⟩ := ofExcept_eq_ok.mp hfirst
      obtain ⟨_, v, hstore, hrest⟩ := bind_eq_ok.mp hrest
      obtain rfl := storePage_eq_ok.mp hstore
      obtain ⟨rest, w, hothers, hlast⟩ := bind_eq_ok.mp hrest
      obtain ⟨rfl, rfl⟩ := pure_eq_ok.mp hlast
      obtain ⟨pages, hpages, heq, hroot, rfl⟩ := appendGroups_ok hothers
      exact ⟨page, pages, .cons hbuild hpages, heq, hroot, by simp⟩

/-! ## Splitting inner pages -/

section

variable {split : List Nat → Page size → PageObject → PageKind → BtreeM size Unit}
variable (hsplit : ∀ path page obj t t',
  split path page obj .notLeaf t = .ok () t' → Inner t path → OnlyInner t t')

include hsplit

theorem replacePointer_onlyInner {path : List Nat} {page : Page size}
    {oldKey : Bytes} {ptr : PageObject} {wasSplit : Bool} {t t' : Btree size}
    (h : replacePointer split path page oldKey ptr t = .ok wasSplit t')
    (hpath : Inner t path) (hkind : page.kind = .notLeaf) : OnlyInner t t' := by
  unfold replacePointer at h
  have hremoved : (if oldKey ≠ [] then (page.delete oldKey 0).1 else page).kind =
      .notLeaf := by
    split
    · exact hkind
    · exact hkind
  generalize (if oldKey ≠ [] then (page.delete oldKey 0).1 else page) = removed
    at h hremoved
  split at h
  · obtain ⟨_, u, hrun, hlast⟩ := bind_eq_ok.mp h
    obtain ⟨-, rfl⟩ := pure_eq_ok.mp hlast
    exact hsplit _ _ _ _ _ hrun hpath
  · obtain ⟨page', u, hrun, hrest⟩ := bind_eq_ok.mp h
    obtain ⟨hadd, rfl⟩ := ofExcept_eq_ok.mp hrun
    obtain ⟨n, v, hrun, hrest⟩ := bind_eq_ok.mp hrest
    obtain ⟨hlast, rfl⟩ := lastPage_eq_ok.mp hrun
    obtain ⟨_, w, hstore, hrest⟩ := bind_eq_ok.mp hrest
    obtain ⟨-, rfl⟩ := pure_eq_ok.mp hrest
    exact .storePage hstore (hpath n (List.mem_of_getLast? hlast))
      ((kind_add hadd).1.trans hremoved)

theorem addPagePointer_onlyInner {path : List Nat} {ptr : PageObject}
    {t t' : Btree size} (h : addPagePointer split path ptr t = .ok () t')
    (hpath : Inner t path.dropLast) : OnlyInner t t' := by
  obtain ⟨parentNumber, u, hrun, hrest⟩ := bind_eq_ok.mp h
  obtain ⟨hlast, rfl⟩ := lastPage_eq_ok.mp hrun
  obtain ⟨parent, v, hfetch, hrest⟩ := bind_eq_ok.mp hrest
  obtain ⟨hparent, rfl⟩ := fetchPage_eq_ok.mp hfetch
  have hinner := hpath parentNumber (List.mem_of_getLast? hlast)
  split at hrest
  · exact hsplit _ _ _ _ _ hrest hpath
  · obtain ⟨parent', w, hrun, hstore⟩ := bind_eq_ok.mp hrest
    obtain ⟨hadd, rfl⟩ := ofExcept_eq_ok.mp hrun
    obtain ⟨page, hpage, hkind⟩ := hinner
    obtain rfl : page = parent := by simpa [hpage] using hparent
    exact .storePage hstore ⟨page, hpage, hkind⟩ ((kind_add hadd).1.trans hkind)

theorem linkPages_onlyInner {path : List Nat} {again : Bool}
    {previous : PageObject} {ptrs : List PageObject} {t t' : Btree size}
    (h : linkPages split path again previous ptrs t = .ok () t')
    (hpath : again = false → Inner t path.dropLast) : OnlyInner t t' := by
  induction ptrs generalizing path again previous t with
  | nil =>
      obtain ⟨-, rfl⟩ := pure_eq_ok.mp h
      exact .refl t
  | cons ptr ptrs ih =>
      have hrest : ∀ {path : List Nat} {u : Btree size}, Inner u path.dropLast →
          (do addPagePointer split path ptr
              linkPages split path true ptr ptrs) u = .ok () t' →
          OnlyInner u t' := by
        intro path u hinner hrun
        obtain ⟨_, v, hadd, hrun⟩ := bind_eq_ok.mp hrun
        exact (addPagePointer_onlyInner hsplit hadd hinner).trans
          (ih hrun fun hfalse => by cases hfalse)
      rw [linkPages] at h
      cases again with
      | true =>
          obtain ⟨path', u, hagain, hrun⟩ := bind_eq_ok.mp h
          obtain ⟨rfl, hinner⟩ := pathAgain_ok hagain
          exact hrest hinner hrun
      | false =>
          obtain ⟨path', u, hsame, hrun⟩ := bind_eq_ok.mp h
          obtain ⟨rfl, rfl⟩ := pure_eq_ok.mp hsame
          exact hrest (hpath rfl) hrun

theorem linkSplit_onlyInner {path : List Nat} {insertedAt : Option Nat}
    {pointers : List PageObject} {t t' : Btree size}
    (h : linkSplit split path insertedAt pointers t = .ok () t')
    (hpath : Inner t path.dropLast) : OnlyInner t t' := by
  cases pointers with
  | nil => cases h
  | cons first others =>
      obtain ⟨left, u, hlast, hrest⟩ := bind_eq_ok.mp h
      obtain ⟨-, rfl⟩ := lastPage_eq_ok.mp hlast
      simp only at hrest
      split at hrest
      · obtain ⟨parentNumber, v, hrun, hrest⟩ := bind_eq_ok.mp hrest
        obtain ⟨hlast, rfl⟩ := lastPage_eq_ok.mp hrun
        obtain ⟨parent, w, hfetch, hrest⟩ := bind_eq_ok.mp hrest
        obtain ⟨hparent, rfl⟩ := fetchPage_eq_ok.mp hfetch
        obtain ⟨again, x, hreplace, hlink⟩ := bind_eq_ok.mp hrest
        obtain ⟨page, hpage, hkind⟩ := hpath parentNumber (List.mem_of_getLast? hlast)
        obtain rfl : page = parent := by simpa [hpage] using hparent
        have hfirst := replacePointer_onlyInner hsplit hreplace hpath hkind
        exact hfirst.trans
          (linkPages_onlyInner hsplit hlink fun _ => hfirst.path hpath)
      · obtain ⟨again, v, hfalse, hlink⟩ := bind_eq_ok.mp hrest
        obtain ⟨-, rfl⟩ := pure_eq_ok.mp hfalse
        exact linkPages_onlyInner hsplit hlink fun _ => hpath

end

theorem newRoot_onlyInner {pointers : List PageObject} {t t' : Btree size}
    (h : newRoot pointers t = .ok () t') : OnlyInner t t' := by
  obtain ⟨root, u, hrun, hrest⟩ := bind_eq_ok.mp h
  obtain ⟨hbuild, rfl⟩ := ofExcept_eq_ok.mp hrun
  obtain ⟨n, v, happend, hroot⟩ := bind_eq_ok.mp hrest
  have heq := setRootPage_eq_ok.mp hroot
  subst heq
  have hinner := OnlyInner.appendPage happend (buildPage_ok hbuild).1
  exact ⟨hinner.leaf, hinner.inner⟩

theorem appendGroups_onlyInner {groups : List (List PageObject)}
    {t t' : Btree size} {numbers : List Nat}
    (h : appendGroups .notLeaf groups t = .ok numbers t') : OnlyInner t t' := by
  induction groups generalizing t numbers with
  | nil =>
      obtain ⟨-, rfl⟩ := pure_eq_ok.mp h
      exact .refl t
  | cons group groups ih =>
      obtain ⟨page, u, hrun, hrest⟩ := bind_eq_ok.mp h
      obtain ⟨hbuild, rfl⟩ := ofExcept_eq_ok.mp hrun
      obtain ⟨n, v, happend, hrest⟩ := bind_eq_ok.mp hrest
      obtain ⟨rest, w, hothers, hlast⟩ := bind_eq_ok.mp hrest
      obtain ⟨-, rfl⟩ := pure_eq_ok.mp hlast
      exact (OnlyInner.appendPage happend (buildPage_ok hbuild).1).trans (ih hothers)

theorem storeGroups_onlyInner {n : Nat} {groups : List (List PageObject)}
    {t t' : Btree size} {numbers : List Nat}
    (h : storeGroups .notLeaf n groups t = .ok numbers t') (hn : InnerAt t n) :
    OnlyInner t t' := by
  cases groups with
  | nil =>
      obtain ⟨-, rfl⟩ := pure_eq_ok.mp h
      exact .refl t
  | cons group groups =>
      obtain ⟨page, u, hrun, hrest⟩ := bind_eq_ok.mp h
      obtain ⟨hbuild, rfl⟩ := ofExcept_eq_ok.mp hrun
      obtain ⟨_, v, hstore, hrest⟩ := bind_eq_ok.mp hrest
      obtain ⟨rest, w, hothers, hlast⟩ := bind_eq_ok.mp hrest
      obtain ⟨-, rfl⟩ := pure_eq_ok.mp hlast
      exact (OnlyInner.storePage hstore hn (buildPage_ok hbuild).1).trans
        (appendGroups_onlyInner hothers)

theorem splitPage_onlyInner (fuel : Nat) (path : List Nat) (page : Page size)
    (obj : PageObject) (t t' : Btree size)
    (h : splitPage fuel path page obj .notLeaf t = .ok () t')
    (hpath : Inner t path) : OnlyInner t t' := by
  induction fuel generalizing path page obj t t' with
  | zero => cases h
  | succ fuel ih =>
      obtain ⟨left, u, hrun, hrest⟩ := bind_eq_ok.mp h
      obtain ⟨hlast, rfl⟩ := lastPage_eq_ok.mp hrun
      obtain ⟨numbers, v, hstore, hrest⟩ := bind_eq_ok.mp hrest
      have hgroups := storeGroups_onlyInner hstore
        (hpath left (List.mem_of_getLast? hlast))
      split at hrest
      · exact hgroups.trans (newRoot_onlyInner hrest)
      · exact hgroups.trans (linkSplit_onlyInner ih hrest fun n hn =>
          hgroups.path hpath n (List.dropLast_subset path hn))

/-! ## Lower bounds -/

theorem fixParentLoop_onlyInner {again : List Nat → BtreeM size Unit}
    (hagain : ∀ path n page t t', LeafPath t path n page →
      again path t = .ok () t' → OnlyInner t t')
    {minKey : Bytes} {above below : List Nat} {t t' : Btree size}
    (h : fixParentLoop again minKey above below t = .ok () t')
    (habove : Inner t above) (hbelow : Inner t below) : OnlyInner t t' := by
  induction below generalizing above t with
  | nil =>
      obtain ⟨-, rfl⟩ := pure_eq_ok.mp h
      exact .refl t
  | cons n below ih =>
      have hn := hbelow n List.mem_cons_self
      have hpath : Inner t (above ++ [n]) := by
        intro m hm
        rcases List.mem_append.mp hm with hm | hm
        · exact habove m hm
        · rw [List.mem_singleton.mp hm]
          exact hn
      have hrest : Inner t below := fun m hm => hbelow m (List.mem_cons_of_mem _ hm)
      obtain ⟨page, u, hrun, hnext⟩ := bind_eq_ok.mp h
      obtain ⟨hpage, rfl⟩ := fetchPage_eq_ok.mp hrun
      obtain ⟨head, v, hrun, hnext⟩ := bind_eq_ok.mp hnext
      obtain ⟨-, rfl⟩ := headObject_eq_ok.mp hrun
      split at hnext
      · obtain ⟨wasSplit, w, hreplace, hafter⟩ := bind_eq_ok.mp hnext
        obtain ⟨page', hpage', hkind⟩ := hn
        obtain rfl : page' = page := by simpa [hpage'] using hpage
        have hfirst := replacePointer_onlyInner (splitPage_onlyInner maxPages)
          hreplace hpath hkind
        split at hafter
        · obtain ⟨⟨path, depthIterator⟩, x, hsearch, hrepeat⟩ := bind_eq_ok.mp hafter
          obtain ⟨rfl, leaf, leafPage, hleaf⟩ := searchPage_ok hsearch
          exact hfirst.trans (hagain path leaf leafPage w t' hleaf hrepeat)
        · exact hfirst.trans
            (ih hafter (hfirst.path hpath) (hfirst.path hrest))
      · exact ih hnext hpath hrest

theorem fixParentPages_onlyInner {path : List Nat} {n : Nat} {page : Page size}
    {t t' : Btree size} (hpath : LeafPath t path n page)
    (h : fixParentPages path t = .ok () t') : OnlyInner t t' := by
  have hfrom : ∀ fuel path n page (t t' : Btree size), LeafPath t path n page →
      fixParentPagesFrom fuel path t = .ok () t' → OnlyInner t t' := by
    intro fuel
    induction fuel with
    | zero =>
        intro path n page t t' hpath h
        cases h
    | succ fuel ih =>
        intro path n page t t' hpath h
        rw [fixParentPagesFrom] at h
        split at h
        · obtain ⟨-, rfl⟩ := pure_eq_ok.mp h
          exact .refl t
        · obtain ⟨leaf, u, hrun, hnext⟩ := bind_eq_ok.mp h
          obtain ⟨-, rfl⟩ := lastPage_eq_ok.mp hrun
          obtain ⟨leafPage, v, hrun, hnext⟩ := bind_eq_ok.mp hnext
          obtain ⟨-, rfl⟩ := fetchPage_eq_ok.mp hrun
          obtain ⟨head, w, hrun, hnext⟩ := bind_eq_ok.mp hnext
          obtain ⟨-, rfl⟩ := headObject_eq_ok.mp hrun
          exact fixParentLoop_onlyInner ih hnext (fun m hm => by cases hm)
            hpath.inner_dropLast
  exact hfrom maxPages path n page t t' hpath h

/-! ## Changes to the leaves -/

/-- The page that adding an object splits, if there is one. -/
def leafToSplit (obj : PageObject) (t : Btree size) : Option (Page size) :=
  match searchPage obj.key t with
  | .ok (path, _) _ =>
      match path.getLast?.bind fun n => t.pages[n]? with
      | some page => if page.used + obj.length ≤ size then none else some page
      | none => none
  | .error _ _ => none

theorem leafToSplit_of_full {obj : PageObject} {t : Btree size}
    {result : List Nat × List Nat} {n : Nat} {page : Page size}
    (hsearch : searchPage obj.key t = .ok result t)
    (hlast : result.1.getLast? = some n) (hpage : t.pages[n]? = some page)
    (hfull : ¬ page.used + obj.length ≤ size) :
    leafToSplit obj t = some page := by
  simp [leafToSplit, hsearch, hlast, hpage, hfull]

/-- The objects that a split moves to new pages. -/
def movedObjects (obj : PageObject) (t : Btree size) : List PageObject :=
  match leafToSplit obj t with
  | some page => (splitObjects size (insertObject obj page.objects)).tail.flatten
  | none => []

/-- What happens to the leaves when an object is added to one of them. -/
structure AddsTo (obj : PageObject) (n : Nat) (objects : List PageObject)
    (t t' : Btree size) : Prop where
  before : ∀ o ∈ objects, leafAt t n = some objects
  after : ∀ m contents, leafAt t' m = some contents →
    leafAt t m = some contents ∨
      (∀ o ∈ contents, o = obj ∨ o ∈ objects) ∧
        (m = n ∨ ∀ o ∈ contents, o ∈ movedObjects obj t)

theorem AddsTo.onlyInner {obj : PageObject} {n : Nat} {objects : List PageObject}
    {t u v : Btree size} (h : AddsTo obj n objects t u) (hinner : OnlyInner u v) :
    AddsTo obj n objects t v :=
  ⟨h.before, fun m contents hm => h.after m contents (by rwa [← hinner.leaf])⟩

theorem storeGroups_addsTo {obj : PageObject} {n : Nat} {page : Page size}
    {t t' : Btree size} {numbers : List Nat} (hpage : t.pages[n]? = some page)
    (hkind : page.kind = .leaf) (hsplit : leafToSplit obj t = some page)
    (h : storeGroups .leaf n
      (splitObjects size (insertObject obj page.objects)) t = .ok numbers t') :
    AddsTo obj n page.objects t t' := by
  obtain ⟨first, others, hgroups, hpages, -, -⟩ :=
    storeGroups_ok h (splitObjectsInto_ne_nil _ _ _)
  have hbuilt : ∀ {groups : List (List PageObject)} {pages : List (Page size)},
      List.Forall₂ (fun group page => buildPage .leaf group = .ok page) groups pages →
      ∀ p ∈ pages, ∀ o ∈ p.objects, o ∈ groups.flatten := by
    intro groups pages hgroups p hp o ho
    obtain ⟨i, hi, rfl⟩ := List.mem_iff_getElem.mp hp
    have hlt : i < groups.length := hgroups.length_eq ▸ hi
    have hmem := (buildPage_ok (hgroups.get hlt hi)).2.mem_iff.mp ho
    exact List.mem_flatten.mpr ⟨_, List.getElem_mem hlt, hmem⟩
  have hcontents : ∀ p ∈ first :: others, ∀ o ∈ p.objects,
      o = obj ∨ o ∈ page.objects := by
    intro p hp o ho
    have hmem := hbuilt hgroups p hp o ho
    rw [splitObjects_flatten] at hmem
    simpa using (insertObject_perm obj page.objects).mem_iff.mp hmem
  have hmoved : ∀ p ∈ others, ∀ o ∈ p.objects, o ∈ movedObjects obj t := by
    simp only [movedObjects, hsplit]
    generalize splitObjects size (insertObject obj page.objects) = groups at hgroups ⊢
    cases hgroups with
    | cons hfirst hothers => exact hbuilt hothers
  refine ⟨fun o ho => leafAt_eq_some.mpr ⟨page, hpage, hkind, rfl⟩,
    fun m contents hm => ?_⟩
  obtain ⟨p, hp, hpkind, rfl⟩ := leafAt_eq_some.mp hm
  rw [hpages] at hp
  rw [List.getElem?_append] at hp
  split at hp
  · by_cases hm : n = m
    · subst hm
      rw [List.getElem?_set_self (List.getElem?_eq_some_iff.mp hpage).1] at hp
      cases hp
      exact .inr ⟨hcontents first List.mem_cons_self, .inl rfl⟩
    · rw [List.getElem?_set_ne hm] at hp
      exact .inl (leafAt_eq_some.mpr ⟨p, hp, hpkind, rfl⟩)
  · have hother := List.mem_of_getElem? hp
    exact .inr ⟨hcontents p (List.mem_cons_of_mem _ hother), .inr (hmoved p hother)⟩

theorem storeGroups_inner {n : Nat} {page : Page size} {objects : List PageObject}
    {t t' : Btree size} {numbers above : List Nat}
    (hpage : t.pages[n]? = some page) (hkind : page.kind = .leaf)
    (h : storeGroups .leaf n (splitObjects size objects) t = .ok numbers t')
    (habove : Inner t above) : Inner t' above := by
  obtain ⟨first, others, -, hpages, -, -⟩ :=
    storeGroups_ok h (splitObjectsInto_ne_nil _ _ _)
  intro m hm
  obtain ⟨p, hp, hpkind⟩ := habove m hm
  have hlt := (List.getElem?_eq_some_iff.mp hp).1
  have hne : n ≠ m := by
    rintro rfl
    obtain rfl : page = p := Option.some.inj (hpage.symm.trans hp)
    rw [hkind] at hpkind
    cases hpkind
  refine ⟨p, ?_, hpkind⟩
  rw [hpages, List.getElem?_append_left (by simpa using hlt),
    List.getElem?_set_ne hne, hp]

theorem addSmall_addsTo {obj : PageObject} {r : Nat} {t t' : Btree size}
    (h : addSmall obj t = .ok r t') : ∃ n objects, AddsTo obj n objects t t' := by
  have hrest : ∀ {n k : Nat} {objects} {u v : Btree size} {next},
      AddsTo obj n objects t u → (searchPage obj.key >>= next) u = .ok r v →
      (∀ path depthIterator, next (path, depthIterator) = do
        fixParentPages path
        pure k) → AddsTo obj n objects t v := by
    intro n k objects u v next hadds hrun hnext
    obtain ⟨⟨path, depthIterator⟩, w, hsearch, hrun⟩ := bind_eq_ok.mp hrun
    obtain ⟨rfl, leaf, page, hpath⟩ := searchPage_ok hsearch
    rw [hnext] at hrun
    obtain ⟨_, x, hfix, hlast⟩ := bind_eq_ok.mp hrun
    obtain ⟨-, rfl⟩ := pure_eq_ok.mp hlast
    exact hadds.onlyInner (fixParentPages_onlyInner hpath hfix)
  obtain ⟨total, u, htotal, hnext⟩ := bind_eq_ok.mp h
  obtain ⟨rfl, rfl⟩ := totalPages_eq_ok.mp htotal
  split at hnext
  next hempty =>
      obtain ⟨page, u, hrun, hnext⟩ := bind_eq_ok.mp hnext
      obtain ⟨hadd, rfl⟩ := ofExcept_eq_ok.mp hrun
      obtain ⟨n, v, happend, hnext⟩ := bind_eq_ok.mp hnext
      obtain ⟨-, rfl, rfl⟩ := appendPage_eq_ok.mp happend
      obtain ⟨_, w, hroot, hlast⟩ := bind_eq_ok.mp hnext
      obtain ⟨-, rfl⟩ := pure_eq_ok.mp hlast
      have heq := setRootPage_eq_ok.mp hroot
      subst heq
      refine ⟨t.pages.length, [], by simp, fun m contents hm => .inr ?_⟩
      obtain ⟨p, hp, -, rfl⟩ := leafAt_eq_some.mp hm
      have hnil : t.pages = [] := List.length_eq_zero_iff.mp hempty
      simp only [hnil, List.nil_append] at hp
      have hm := (List.getElem?_eq_some_iff.mp hp).1
      obtain rfl : m = 0 := by simpa using hm
      obtain rfl : page = p := by simpa using hp
      refine ⟨fun o ho => .inl ?_, .inl (by simp [hnil])⟩
      rw [(kind_add hadd).2, (sortObjects_perm _).mem_iff] at ho
      simpa [Page.new] using ho
  next =>
      obtain ⟨path, depthIterator, n, page, hsearch, hpath, hnext⟩ :=
        searchLeaf_ok hnext fun _ _ => rfl
      refine ⟨n, page.objects, ?_⟩
      split at hnext
      next =>
          obtain ⟨page', u, hrun, hnext⟩ := bind_eq_ok.mp hnext
          obtain ⟨hadd, rfl⟩ := ofExcept_eq_ok.mp hrun
          obtain ⟨_, v, hstore, hnext⟩ := bind_eq_ok.mp hnext
          refine hrest ⟨fun o ho => leafAt_eq_some.mpr
            ⟨page, hpath.stored, hpath.kind, rfl⟩, fun m contents hm => ?_⟩ hnext
            fun _ _ => rfl
          obtain rfl := storePage_eq_ok.mp hstore
          obtain ⟨p, hp, hkind, rfl⟩ := leafAt_eq_some.mp hm
          by_cases hmn : n = m
          · subst hmn
            have hlt := (List.getElem?_eq_some_iff.mp hpath.stored).1
            obtain rfl : page' = p := by simpa [hlt] using hp
            refine .inr ⟨fun o ho => ?_, .inl rfl⟩
            rw [(kind_add hadd).2, (sortObjects_perm _).mem_iff] at ho
            simpa [or_comm] using ho
          · exact .inl (leafAt_eq_some.mpr
              ⟨p, by simpa [List.getElem?_set_ne hmn] using hp, hkind, rfl⟩)
      next hfull =>
          obtain ⟨_, u, hsplit, hnext⟩ := bind_eq_ok.mp hnext
          refine hrest ?_ hnext fun _ _ => rfl
          obtain ⟨left, v, hrun, hmore⟩ := bind_eq_ok.mp hsplit
          obtain ⟨hlast, rfl⟩ := lastPage_eq_ok.mp hrun
          obtain rfl : n = left := Option.some.inj (hpath.last.symm.trans hlast)
          obtain ⟨numbers, w, hstore, hmore⟩ := bind_eq_ok.mp hmore
          have hadds := storeGroups_addsTo hpath.stored hpath.kind
            (leafToSplit_of_full hsearch hlast hpath.stored hfull) hstore
          have hinner := storeGroups_inner hpath.stored hpath.kind hstore hpath.inner
          split at hmore
          · exact hadds.onlyInner (newRoot_onlyInner hmore)
          · exact hadds.onlyInner
              (linkSplit_onlyInner (splitPage_onlyInner _) hmore hinner)

/-! ## Where the objects with a property are -/

def HoldsAt (Q : PageObject → Prop) (t : Btree size) (n : Nat) : Prop :=
  ∃ contents, leafAt t n = some contents ∧ ∃ o ∈ contents, Q o

/-- No object with the property appears on a page that had none. -/
def Confines (Q : PageObject → Prop) (t t' : Btree size) : Prop :=
  ∀ n, HoldsAt Q t' n → HoldsAt Q t n

/-- The objects are added without moving such an object to a new page. -/
def SplitsSafely (Q : PageObject → Prop) :
    List PageObject → Btree size → Prop
  | [], _ => True
  | obj :: others, t =>
      (∀ o ∈ movedObjects obj t, ¬ Q o) ∧
        ∀ n t', addSmall obj t = .ok n t' → SplitsSafely Q others t'

def AddsSafely (Q : PageObject → Prop) (obj : PageObject) (t : Btree size) : Prop :=
  ∀ objects, pieces size obj = .ok objects → SplitsSafely Q objects t

section

variable {Q : PageObject → Prop}

namespace Confines

theorem refl (t : Btree size) : Confines Q t t := fun _ h => h

theorem trans (t u v : Btree size) (first : Confines Q t u)
    (second : Confines Q u v) : Confines Q t v :=
  fun n h => first n (second n h)

theorem onlyInner {t t' : Btree size} (h : OnlyInner t t') : Confines Q t t' := by
  rintro n ⟨contents, hleaf, hmem⟩
  exact ⟨contents, by rwa [← h.leaf], hmem⟩

theorem storePage {t t' : Btree size} {n : Nat} {page page' : Page size}
    {u : Unit} (h : storePage n page' t = .ok u t')
    (hpage : t.pages[n]? = some page) (hkind : page.kind = .leaf)
    (hobjects : (∃ o ∈ page'.objects, Q o) → ∃ o ∈ page.objects, Q o) :
    Confines Q t t' := by
  obtain rfl := storePage_eq_ok.mp h
  rintro m ⟨contents, hleaf, hmem⟩
  obtain ⟨p, hp, hpkind, rfl⟩ := leafAt_eq_some.mp hleaf
  by_cases hm : n = m
  · subst hm
    have hlt := (List.getElem?_eq_some_iff.mp hpage).1
    obtain rfl : page' = p := by simpa [hlt] using hp
    exact ⟨page.objects, leafAt_eq_some.mpr ⟨page, hpage, hkind, rfl⟩, hobjects hmem⟩
  · exact ⟨p.objects, leafAt_eq_some.mpr
      ⟨p, by simpa [List.getElem?_set_ne hm] using hp, hpkind, rfl⟩, hmem⟩

end Confines

theorem addSmall_confines {obj : PageObject} {r : Nat} {t t' : Btree size}
    (h : addSmall obj t = .ok r t') (hobj : ¬ Q obj)
    (hsplit : ∀ o ∈ movedObjects obj t, ¬ Q o) : Confines Q t t' := by
  obtain ⟨n, objects, hbefore, hafter⟩ := addSmall_addsTo h
  rintro m ⟨contents, hleaf, o, ho, hQ⟩
  rcases hafter m contents hleaf with hsame | ⟨hcontents, hplace⟩
  · exact ⟨contents, hsame, o, ho, hQ⟩
  · rcases hcontents o ho with rfl | hmem
    · exact absurd hQ hobj
    · rcases hplace with rfl | hmoved
      · exact ⟨objects, hbefore o hmem, o, hmem, hQ⟩
      · exact absurd hQ (hsplit o (hmoved o ho))

theorem addSmall_holds {obj : PageObject} {r : Nat} {t t' : Btree size}
    (h : addSmall obj t = .ok r t') (hobj : ¬ Q obj) {m : Nat}
    (hm : HoldsAt Q t' m) : ∃ n, HoldsAt Q t n := by
  obtain ⟨n, objects, hbefore, hafter⟩ := addSmall_addsTo h
  obtain ⟨contents, hleaf, o, ho, hQ⟩ := hm
  rcases hafter m contents hleaf with hsame | ⟨hcontents, -⟩
  · exact ⟨m, contents, hsame, o, ho, hQ⟩
  · rcases hcontents o ho with rfl | hmem
    · exact absurd hQ hobj
    · exact ⟨n, objects, hbefore o hmem, o, hmem, hQ⟩

theorem addPieces_confines {objects : List PageObject} {r : Nat}
    {t t' : Btree size} (h : addPieces objects t = .ok r t')
    (hobjects : ∀ o ∈ objects, ¬ Q o) (hsafe : SplitsSafely Q objects t) :
    Confines Q t t' := by
  induction objects generalizing t with
  | nil => cases h
  | cons obj others ih =>
      obtain ⟨hsplit, hrest⟩ := hsafe
      have hobj := hobjects obj List.mem_cons_self
      cases others with
      | nil => exact addSmall_confines h hobj hsplit
      | cons next others =>
          obtain ⟨_, u, hrun, hmore⟩ := bind_eq_ok.mp h
          obtain ⟨n, v, hadd, hlast⟩ := bind_eq_ok.mp hrun
          obtain ⟨-, rfl⟩ := pure_eq_ok.mp hlast
          exact Confines.trans t v t' (addSmall_confines hadd hobj hsplit)
            (ih hmore (fun o ho => hobjects o (List.mem_cons_of_mem _ ho))
              (hrest n v hadd))

theorem addPieces_holds {objects : List PageObject} {r : Nat} {t t' : Btree size}
    (h : addPieces objects t = .ok r t') (hobjects : ∀ o ∈ objects, ¬ Q o) {m : Nat}
    (hm : HoldsAt Q t' m) : ∃ n, HoldsAt Q t n := by
  induction objects generalizing t with
  | nil => cases h
  | cons obj others ih =>
      have hobj := hobjects obj List.mem_cons_self
      cases others with
      | nil => exact addSmall_holds h hobj hm
      | cons next others =>
          obtain ⟨_, u, hrun, hmore⟩ := bind_eq_ok.mp h
          obtain ⟨n, v, hadd, hlast⟩ := bind_eq_ok.mp hrun
          obtain ⟨-, rfl⟩ := pure_eq_ok.mp hlast
          obtain ⟨k, hk⟩ := ih hmore fun o ho => hobjects o (List.mem_cons_of_mem _ ho)
          exact addSmall_holds hadd hobj hk

end

theorem blobParts_mem {obj o : PageObject} {blobSize fuel part : Nat}
    {remaining : Bytes} (h : o ∈ blobParts obj blobSize fuel part remaining) :
    o.tid = obj.tid ∧ o.xid = obj.xid := by
  induction fuel generalizing part remaining with
  | zero => cases h
  | succ fuel ih =>
      rw [blobParts] at h
      split at h
      · rcases List.mem_cons.mp h with rfl | h
        · exact ⟨rfl, rfl⟩
        · exact ih h
      · split at h
        · obtain rfl := List.mem_singleton.mp h
          exact ⟨rfl, rfl⟩
        · simp only [List.mem_cons, List.not_mem_nil, or_false] at h
          rcases h with rfl | rfl <;> exact ⟨rfl, rfl⟩

theorem pieces_mem {obj o : PageObject} {objects : List PageObject}
    (h : pieces size obj = .ok objects) (ho : o ∈ objects) :
    o.tid = obj.tid ∧ o.xid = obj.xid := by
  unfold pieces at h
  split at h
  · split at h
    · cases h
    · cases h
      exact blobParts_mem ho
  · cases h
    obtain rfl := List.mem_singleton.mp ho
    exact ⟨rfl, rfl⟩

theorem delete_objects_subset {page : Page size} {key : Bytes} {tid : Nat} :
    (page.delete key tid).1.objects ⊆ page.objects :=
  List.filter_subset_self _

theorem expire_ok {page page' : Page size} {key : Bytes} {tid xid : Nat}
    {modified : Bool} (h : page.expire key tid xid = .ok (page', modified)) :
    page'.kind = page.kind ∧
      page'.objects = page.objects.map (Page.setXid key tid xid) := by
  unfold Page.expire at h
  split at h
  · cases h
  · cases h
    exact ⟨rfl, rfl⟩

theorem mem_setXid {objects : List PageObject} {key : Bytes} {tid xid : Nat}
    {o : PageObject} (h : o ∈ objects.map (Page.setXid key tid xid)) :
    o ∈ objects ∨ ∃ o' ∈ objects, o = { o' with xid := xid } := by
  obtain ⟨o', ho', rfl⟩ := List.mem_map.mp h
  unfold Page.setXid
  split
  · exact .inr ⟨o', ho', rfl⟩
  · exact .inl ho'

/-- A version of the key is removed or expired. -/
theorem update_mem {page page' : Page size} {old o : PageObject} {tid : Nat}
    (h : page.update old tid = .ok page') (ho : o ∈ page'.objects) :
    o ∈ page.objects ∨ ∃ o' ∈ page.objects, o = { o' with xid := tid } := by
  unfold Page.update at h
  split at h
  · split at h
    · cases h
      exact .inl (delete_objects_subset ho)
    · cases hexpire : page.expire old.key _ tid with
      | error e =>
          rw [hexpire] at h
          cases h
      | ok result =>
          obtain ⟨expired, modified⟩ := result
          rw [hexpire] at h
          cases h
          rw [(expire_ok hexpire).2] at ho
          exact mem_setXid ho
  · cases h
    exact .inl (delete_objects_subset ho)
  · cases h
    exact .inl ho

section

variable {Q : PageObject → Prop} {t t' : Btree size}

theorem add_confines {obj : PageObject} {r : Nat} (h : add obj t = .ok r t')
    (hobj : ∀ o, o.tid = obj.tid → o.xid = obj.xid → ¬ Q o)
    (hsafe : AddsSafely Q obj t) : Confines Q t t' := by
  obtain ⟨objects, u, hrun, hadd⟩ := bind_eq_ok.mp h
  obtain ⟨hpieces, rfl⟩ := ofExcept_eq_ok.mp hrun
  refine addPieces_confines hadd (fun o ho => ?_) (hsafe objects hpieces)
  obtain ⟨htid, hxid⟩ := pieces_mem hpieces ho
  exact hobj o htid hxid

theorem add_holds {obj : PageObject} {r : Nat} (h : add obj t = .ok r t')
    (hobj : ∀ o, o.tid = obj.tid → o.xid = obj.xid → ¬ Q o) {m : Nat}
    (hm : HoldsAt Q t' m) : ∃ n, HoldsAt Q t n := by
  obtain ⟨objects, u, hrun, hadd⟩ := bind_eq_ok.mp h
  obtain ⟨hpieces, rfl⟩ := ofExcept_eq_ok.mp hrun
  refine addPieces_holds hadd (fun o ho => ?_) hm
  obtain ⟨htid, hxid⟩ := pieces_mem hpieces ho
  exact hobj o htid hxid

theorem removeBlobKeys_confines {tid : Nat} {keys : List Bytes}
    (h : removeBlobKeys tid keys t = .ok () t') : Confines Q t t' := by
  induction keys generalizing t with
  | nil =>
      obtain ⟨-, rfl⟩ := pure_eq_ok.mp h
      exact .refl t
  | cons key keys ih =>
      rw [removeBlobKeys] at h
      obtain ⟨path, depthIterator, n, page, -, hpath, hnext⟩ :=
        searchLeaf_ok h fun _ _ => rfl
      split at hnext
      · obtain ⟨_, u, hstore, hmore⟩ := bind_eq_ok.mp hnext
        refine Confines.trans t u t' (.storePage hstore hpath.stored hpath.kind ?_)
          (ih hmore)
        rintro ⟨o, ho, hQ⟩
        exact ⟨o, delete_objects_subset ho, hQ⟩
      · exact ih hnext

theorem replaceVersion_confines {obj : PageObject} {r : Nat}
    (h : replaceVersion obj t = .ok r t')
    (hxid : ∀ o : PageObject, Q { o with xid := obj.tid } → Q o) :
    Confines Q t t' := by
  obtain ⟨path, depthIterator, n, page, -, hpath, hnext⟩ :=
    searchLeaf_ok h fun _ _ => rfl
  obtain ⟨page', u, hrun, hnext⟩ := bind_eq_ok.mp hnext
  obtain ⟨hupdate, rfl⟩ := ofExcept_eq_ok.mp hrun
  obtain ⟨_, v, hstore, hnext⟩ := bind_eq_ok.mp hnext
  refine Confines.trans t v t' (.storePage hstore hpath.stored hpath.kind ?_) ?_
  · rintro ⟨o, ho, hQ⟩
    rcases update_mem hupdate ho with ho | ⟨o', ho', rfl⟩
    · exact ⟨o, ho, hQ⟩
    · exact ⟨o', ho', hxid o' hQ⟩
  · cases hown : page.get obj.key obj.tid with
    | none =>
        simp only [hown] at hnext
        obtain ⟨-, rfl⟩ := pure_eq_ok.mp hnext
        exact .refl v
    | some own =>
        simp only [hown] at hnext
        split at hnext
        · obtain ⟨_, w, hremove, hlast⟩ := bind_eq_ok.mp hnext
          obtain ⟨-, rfl⟩ := pure_eq_ok.mp hlast
          exact removeBlobKeys_confines hremove
        · obtain ⟨-, rfl⟩ := pure_eq_ok.mp hnext
          exact .refl v

/-- An update is the replacement of a version, and then an addition. -/
theorem update_ok {obj : PageObject} {r : Nat} (h : update obj t = .ok r t') :
    ∃ u v n m, replaceVersion obj t = .ok n u ∧ add obj u = .ok m v ∧
      OnlyInner v t' := by
  obtain ⟨n, u, hreplace, hnext⟩ := bind_eq_ok.mp h
  obtain ⟨_, v, hrun, hnext⟩ := bind_eq_ok.mp hnext
  obtain ⟨m, w, hadd, hlast⟩ := bind_eq_ok.mp hrun
  obtain ⟨-, rfl⟩ := pure_eq_ok.mp hlast
  obtain ⟨⟨path, depthIterator⟩, x, hsearch, hnext⟩ := bind_eq_ok.mp hnext
  obtain ⟨rfl, leaf, page, hpath⟩ := searchPage_ok hsearch
  obtain ⟨_, y, hfix, hlast⟩ := bind_eq_ok.mp hnext
  obtain ⟨-, rfl⟩ := pure_eq_ok.mp hlast
  exact ⟨u, w, n, m, hreplace, hadd, fixParentPages_onlyInner hpath hfix⟩

theorem update_confines {obj : PageObject} {r : Nat} (h : update obj t = .ok r t')
    (hxid : ∀ o : PageObject, Q { o with xid := obj.tid } → Q o)
    (hobj : ∀ o, o.tid = obj.tid → o.xid = obj.xid → ¬ Q o)
    (hsafe : ∀ n u, replaceVersion obj t = .ok n u → AddsSafely Q obj u) :
    Confines Q t t' := by
  obtain ⟨u, v, n, m, hreplace, hadd, hinner⟩ := update_ok h
  exact Confines.trans t u t' (replaceVersion_confines hreplace hxid)
    (.trans u v t' (add_confines hadd hobj (hsafe n u hreplace)) (.onlyInner hinner))

theorem update_holds {obj : PageObject} {r : Nat} (h : update obj t = .ok r t')
    (hxid : ∀ o : PageObject, Q { o with xid := obj.tid } → Q o)
    (hobj : ∀ o, o.tid = obj.tid → o.xid = obj.xid → ¬ Q o) {k : Nat}
    (hk : HoldsAt Q t' k) : ∃ n, HoldsAt Q t n := by
  obtain ⟨u, v, n, m, hreplace, hadd, hinner⟩ := update_ok h
  obtain ⟨j, hj⟩ := add_holds hadd hobj (Confines.onlyInner hinner k hk)
  exact ⟨j, replaceVersion_confines hreplace hxid j hj⟩

theorem expire_confines {key : Bytes} {tid xid : Nat} {r : Option Nat}
    (h : expire key tid xid t = .ok r t')
    (hxid : ∀ o : PageObject, Q { o with xid := xid } → Q o) : Confines Q t t' := by
  obtain ⟨path, depthIterator, n, page, -, hpath, hnext⟩ :=
    searchLeaf_ok h fun _ _ => rfl
  obtain ⟨⟨page', modified⟩, u, hrun, hnext⟩ := bind_eq_ok.mp hnext
  obtain ⟨hexpire, rfl⟩ := ofExcept_eq_ok.mp hrun
  simp only at hnext
  split at hnext
  · obtain ⟨_, v, hstore, hlast⟩ := bind_eq_ok.mp hnext
    obtain ⟨-, rfl⟩ := pure_eq_ok.mp hlast
    refine .storePage hstore hpath.stored hpath.kind ?_
    rintro ⟨o, ho, hQ⟩
    rw [(expire_ok hexpire).2] at ho
    rcases mem_setXid ho with ho | ⟨o', ho', rfl⟩
    · exact ⟨o, ho, hQ⟩
    · exact ⟨o', ho', hxid o' hQ⟩
  · obtain ⟨-, rfl⟩ := pure_eq_ok.mp hnext
    exact .refl t

theorem replaceValue_confines {obj : PageObject} {value : Bytes}
    (h : replaceValue obj value t = .ok () t')
    (hobj : Q ⟨obj.key, value, false, obj.tid, obj.xid⟩ →
      ∃ path depthIterator n page, searchPage obj.key t = .ok (path, depthIterator) t ∧
        LeafPath t path n page ∧ ∃ o ∈ page.objects, Q o) : Confines Q t t' := by
  obtain ⟨path, depthIterator, n, page, hsearch, hpath, hnext⟩ :=
    searchLeaf_ok h fun _ _ => rfl
  split at hnext
  · obtain ⟨page', u, hrun, hstore⟩ := bind_eq_ok.mp hnext
    obtain ⟨hadd, rfl⟩ := ofExcept_eq_ok.mp hrun
    refine .storePage hstore hpath.stored hpath.kind ?_
    rintro ⟨o, ho, hQ⟩
    rw [(kind_add hadd).2, (sortObjects_perm _).mem_iff, List.mem_append,
      List.mem_singleton] at ho
    rcases ho with ho | rfl
    · exact ⟨o, delete_objects_subset ho, hQ⟩
    · obtain ⟨path', depthIterator', n', p, hsearch', hpath', hmem⟩ := hobj hQ
      rw [hsearch] at hsearch'
      cases hsearch'
      obtain rfl : n = n' := Option.some.inj (hpath.last.symm.trans hpath'.last)
      obtain rfl : page = p := Option.some.inj (hpath.stored.symm.trans hpath'.stored)
      exact hmem
  · cases hnext

end

end Vsql.Btree
