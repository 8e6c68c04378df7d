import Vsql.Btree.Groups

/-!
# Which pages an operation of the B-tree changes

A search ends at a leaf, and all the pages before it are inner pages.  Every
page that an operation changes is one of its written pages.
-/

namespace Vsql.Btree

open Foundation StateError

variable {size : PageSize}

/-! ## Leaves and other pages -/

def leafAt (t : Btree size) (n : Nat) : Option (List PageObject) :=
  match t.pages[n]? with
  | some page => if page.kind = .leaf then some page.objects else none
  | none => none

def InnerAt (t : Btree size) (n : Nat) : Prop :=
  ∃ page, t.pages[n]? = some page ∧ page.kind = .notLeaf

theorem leafAt_eq_some {t : Btree size} {n : Nat} {objects : List PageObject} :
    leafAt t n = some objects ↔
      ∃ page, t.pages[n]? = some page ∧ page.kind = .leaf ∧
        page.objects = objects := by
  unfold leafAt
  cases t.pages[n]? with
  | none => simp
  | some page =>
      by_cases hkind : page.kind = .leaf <;> simp [hkind]

theorem leafAt_eq_none_of_inner {t : Btree size} {n : Nat} (h : InnerAt t n) :
    leafAt t n = none := by
  obtain ⟨page, hpage, hkind⟩ := h
  simp [leafAt, hpage, hkind]

/-- A path of inner pages that ends with a leaf. -/
structure LeafPath (t : Btree size) (path : List Nat) (n : Nat)
    (page : Page size) : Prop where
  last : path.getLast? = some n
  stored : t.pages[n]? = some page
  kind : page.kind = .leaf
  inner : ∀ m ∈ path.dropLast, InnerAt t m

theorem searchFrom_ok {key : Bytes} {fuel start : Nat} {t t' : Btree size}
    {result : List Nat × List Nat}
    (h : searchFrom key fuel start t = .ok result t') :
    t = t' ∧ ∃ n page, LeafPath t result.1 n page := by
  induction fuel generalizing start result with
  | zero => cases h
  | succ fuel ih =>
      obtain ⟨page, u, hfetch, hrest⟩ := bind_eq_ok.mp h
      obtain ⟨hpage, rfl⟩ := fetchPage_eq_ok.mp hfetch
      cases hkind : page.kind with
      | leaf =>
          simp only [hkind, pure_eq_ok] at hrest
          obtain ⟨rfl, rfl⟩ := hrest
          exact ⟨rfl, start, page, by simp, hpage, hkind, by simp⟩
      | notLeaf =>
          simp only [hkind] at hrest
          cases ho : page.objects[pointerIndex key page.objects]? with
          | none =>
              simp only [ho] at hrest
              cases hrest
          | some o =>
              simp only [ho] at hrest
              obtain ⟨⟨path, depthIterator⟩, v, hbelow, hlast⟩ := bind_eq_ok.mp hrest
              obtain ⟨rfl, rfl⟩ := pure_eq_ok.mp hlast
              obtain ⟨rfl, n, leaf, hpath⟩ := ih hbelow
              obtain ⟨hlast, hleaf, hleafKind, hinner⟩ := hpath
              refine ⟨rfl, n, leaf, ?_, hleaf, hleafKind, ?_⟩
              · simp [List.getLast?_cons, hlast]
              · intro m hm
                cases path with
                | nil => cases hlast
                | cons first rest =>
                    rw [List.dropLast_cons_cons, List.mem_cons] at hm
                    rcases hm with rfl | hm
                    · exact ⟨page, hpage, hkind⟩
                    · exact hinner m hm

theorem searchPage_ok {key : Bytes} {t t' : Btree size}
    {result : List Nat × List Nat} (h : searchPage key t = .ok result t') :
    t = t' ∧ ∃ n page, LeafPath t result.1 n page :=
  searchFrom_ok h

/-- Every operation on one key starts by finding its leaf. -/
theorem searchLeaf_ok {α : Type} {key : Bytes}
    {next : List Nat × List Nat → BtreeM size α}
    {f : List Nat → Nat → Page size → BtreeM size α} {a : α} {t t' : Btree size}
    (h : (searchPage key >>= next) t = .ok a t')
    (hnext : ∀ path depthIterator, next (path, depthIterator) = do
      let n ← lastPage path
      let page ← fetchPage n
      f path n page) :
    ∃ path depthIterator n page, searchPage key t = .ok (path, depthIterator) t ∧
      LeafPath t path n page ∧ f path n page t = .ok a t' := by
  obtain ⟨⟨path, depthIterator⟩, u, hsearch, hrest⟩ := bind_eq_ok.mp h
  obtain ⟨rfl, n, page, hpath⟩ := searchPage_ok hsearch
  rw [hnext] at hrest
  obtain ⟨m, u, hrun, hrest⟩ := bind_eq_ok.mp hrest
  obtain ⟨hlast, rfl⟩ := lastPage_eq_ok.mp hrun
  obtain rfl : n = m := Option.some.inj (hpath.last.symm.trans hlast)
  obtain ⟨page', u, hrun, hrest⟩ := bind_eq_ok.mp hrest
  obtain ⟨hpage, rfl⟩ := fetchPage_eq_ok.mp hrun
  obtain rfl : page = page' := Option.some.inj (hpath.stored.symm.trans hpage)
  exact ⟨path, depthIterator, n, page, hsearch, hpath, hrest⟩

/-! ## Written pages -/

structure Tracks (t t' : Btree size) : Prop where
  written : t.writtenPages ⊆ t'.writtenPages
  length_le : t.pages.length ≤ t'.pages.length
  kept : ∀ n, n ∉ t'.writtenPages → t'.pages[n]? = t.pages[n]?

namespace Tracks

theorem refl (t : Btree size) : Tracks t t :=
  ⟨fun _ h => h, le_refl _, fun _ _ => rfl⟩

theorem trans (t u v : Btree size) (first : Tracks t u) (second : Tracks u v) :
    Tracks t v := by
  refine ⟨fun n hn => second.written (first.written hn),
    first.length_le.trans second.length_le, fun n hn => ?_⟩
  rw [second.kept n hn, first.kept n fun h => hn (second.written h)]

theorem fetchPage (n : Nat) : Moves (@Tracks size) (fetchPage n) := by
  intro t page t' h
  obtain ⟨-, rfl⟩ := fetchPage_eq_ok.mp h
  exact refl t

theorem storePage (n : Nat) (page : Page size) : Moves Tracks (storePage n page) := by
  intro t _ t' h
  obtain rfl := storePage_eq_ok.mp h
  refine ⟨fun m hm => List.mem_insert_of_mem hm, by simp, fun m hm => ?_⟩
  have hne : n ≠ m := by
    rintro rfl
    exact hm List.mem_insert_self
  exact List.getElem?_set_ne hne

theorem appendPage (page : Page size) : Moves Tracks (appendPage page) := by
  intro t n t' h
  obtain ⟨-, -, rfl⟩ := appendPage_eq_ok.mp h
  refine ⟨fun m hm => List.mem_insert_of_mem hm, by simp, fun m hm => ?_⟩
  have hne : m ≠ t.pages.length := by
    rintro rfl
    exact hm List.mem_insert_self
  show (t.pages ++ [page])[m]? = _
  rcases Nat.lt_or_gt_of_ne hne with hlt | hgt
  · exact List.getElem?_append_left hlt
  · rw [List.getElem?_eq_none (Nat.le_of_lt hgt),
      List.getElem?_eq_none (by simp; omega)]

theorem setRootPage (n : Nat) : Moves (@Tracks size) (setRootPage n) := by
  intro t _ t' h
  obtain rfl := setRootPage_eq_ok.mp h
  exact ⟨fun _ h => h, le_refl _, fun _ _ => rfl⟩

theorem lastPage (path : List Nat) :
    Moves (@Tracks size) (lastPage path) := by
  intro t n t' h
  obtain ⟨-, rfl⟩ := lastPage_eq_ok.mp h
  exact refl t

theorem headObject (page : Page size) : Moves Tracks (headObject page) := by
  intro t o t' h
  obtain ⟨-, rfl⟩ := headObject_eq_ok.mp h
  exact refl t

theorem searchPage (key : Bytes) : Moves (@Tracks size) (searchPage key) := by
  intro t result t' h
  obtain ⟨rfl, -⟩ := searchPage_ok h
  exact refl t

theorem bind {α β : Type} {x : BtreeM size α} {f : α → BtreeM size β}
    (hx : Moves Tracks x) (hf : ∀ a, Moves Tracks (f a)) :
    Moves Tracks (x >>= f) :=
  Moves.bind trans hx hf

theorem appendGroups (kind : PageKind) (groups : List (List PageObject)) :
    Moves (@Tracks size) (appendGroups kind groups) := by
  induction groups with
  | nil => exact Moves.pure refl []
  | cons group groups ih =>
      exact bind (Moves.ofExcept refl _) fun page => bind (appendPage page) fun n =>
        bind ih fun ns => Moves.pure refl _

theorem storeGroups (kind : PageKind) (n : Nat)
    (groups : List (List PageObject)) :
    Moves (@Tracks size) (storeGroups kind n groups) := by
  cases groups with
  | nil => exact Moves.pure refl []
  | cons group groups =>
      exact bind (Moves.ofExcept refl _) fun page => bind (storePage n page) fun _ =>
        bind (appendGroups kind groups) fun ns => Moves.pure refl _

theorem pathAgain (key : Bytes) (n : Nat) :
    Moves (@Tracks size) (pathAgain key n) := by
  refine bind (searchPage key) fun result => ?_
  obtain ⟨path, depthIterator⟩ := result
  simp only
  split
  · exact Moves.pure refl _
  · exact Moves.throw _

section

variable {split : List Nat → Page size → PageObject → PageKind → BtreeM size Unit}
variable (hsplit : ∀ path page obj kind, Moves Tracks (split path page obj kind))

include hsplit

theorem replacePointer (path : List Nat) (page : Page size) (oldKey : Bytes)
    (ptr : PageObject) : Moves Tracks (replacePointer split path page oldKey ptr) := by
  unfold Btree.replacePointer
  refine Moves.ite (bind (hsplit _ _ _ _) fun _ => Moves.pure refl _) ?_
  exact bind (Moves.ofExcept refl _) fun page => bind (lastPage path) fun n =>
    bind (storePage n page) fun _ => Moves.pure refl _

theorem addPagePointer (path : List Nat) (ptr : PageObject) :
    Moves Tracks (addPagePointer split path ptr) := by
  refine bind (lastPage _) fun parentNumber => bind (fetchPage _) fun parent => ?_
  exact Moves.ite (hsplit _ _ _ _) (bind (Moves.ofExcept refl _) fun page => storePage _ page)

theorem linkPages (path : List Nat) (again : Bool) (previous : PageObject)
    (ptrs : List PageObject) :
    Moves Tracks (linkPages split path again previous ptrs) := by
  induction ptrs generalizing path again previous with
  | nil => exact Moves.pure refl ()
  | cons ptr ptrs ih =>
      have hrest : ∀ path, Moves Tracks (do
          Btree.addPagePointer split path ptr
          Btree.linkPages split path true ptr ptrs) :=
        fun path => bind (addPagePointer hsplit path ptr) fun _ => ih path true ptr
      exact Moves.ite (bind (pathAgain _ _) hrest) (bind (Moves.pure refl _) hrest)

theorem linkSplit (path : List Nat) (insertedAt : Option Nat)
    (pointers : List PageObject) :
    Moves Tracks (linkSplit split path insertedAt pointers) := by
  cases pointers with
  | nil => exact Moves.throw _
  | cons first others =>
      have hlink := fun again => linkPages hsplit path again first others
      refine bind (lastPage _) fun left => Moves.ite ?_ (bind (Moves.pure refl _) hlink)
      exact bind (lastPage _) fun parentNumber => bind (fetchPage _) fun parent =>
        bind (replacePointer hsplit _ _ _ _) hlink

end

theorem newRoot (pointers : List PageObject) :
    Moves (@Tracks size) (newRoot pointers) :=
  bind (Moves.ofExcept refl _) fun root => bind (appendPage root) fun n => setRootPage n

theorem splitPage (fuel : Nat) (path : List Nat) (page : Page size)
    (obj : PageObject) (kind : PageKind) :
    Moves Tracks (splitPage fuel path page obj kind) := by
  induction fuel generalizing path page obj kind with
  | zero => exact Moves.throw _
  | succ fuel ih =>
      refine bind (lastPage _) fun left => bind (storeGroups _ _ _) fun ns => ?_
      exact Moves.ite (newRoot _) (linkSplit ih _ _ _)

theorem fixParentLoop {again : List Nat → BtreeM size Unit}
    (hagain : ∀ path, Moves Tracks (again path)) (minKey : Bytes)
    (above below : List Nat) :
    Moves Tracks (fixParentLoop again minKey above below) := by
  induction below generalizing above with
  | nil => exact Moves.pure refl ()
  | cons n below ih =>
      refine bind (fetchPage n) fun page => bind (headObject page) fun head => ?_
      refine Moves.ite (bind (replacePointer (splitPage _) _ _ _ _) fun wasSplit => ?_) (ih _)
      exact Moves.ite (bind (searchPage _) fun result => hagain _) (ih _)

theorem fixParentPages (path : List Nat) :
    Moves (@Tracks size) (fixParentPages path) := by
  have hfrom : ∀ fuel path, Moves (@Tracks size) (fixParentPagesFrom fuel path) := by
    intro fuel
    induction fuel with
    | zero => exact fun path => Moves.throw _
    | succ fuel ih =>
        intro path
        refine Moves.ite (Moves.pure refl _) ?_
        exact bind (lastPage _) fun leaf => bind (fetchPage leaf) fun page =>
          bind (headObject page) fun head => fixParentLoop ih _ _ _
  exact hfrom maxPages path

theorem addSmall (obj : PageObject) : Moves (@Tracks size) (addSmall obj) := by
  have hrest : ∀ n : Nat, Moves (@Tracks size) (do
      let found ← Btree.searchPage obj.key
      Btree.fixParentPages found.1
      Pure.pure n) := by
    intro n
    refine bind (searchPage _) fun result => ?_
    exact bind (fixParentPages _) fun _ => Moves.pure refl _
  refine bind (fun t total t' h => ?_) fun total => Moves.ite ?_ ?_
  · obtain ⟨-, rfl⟩ := totalPages_eq_ok.mp h
    exact refl t
  · exact bind (Moves.ofExcept refl _) fun page => bind (appendPage page) fun n =>
      bind (setRootPage n) fun _ => Moves.pure refl _
  · refine bind (searchPage _) fun result => bind (lastPage _) fun leaf =>
      bind (fetchPage leaf) fun page => Moves.ite ?_ ?_
    · exact bind (Moves.ofExcept refl _) fun page => bind (storePage _ page) fun _ =>
        hrest leaf
    · exact bind (splitPage _ _ _ _ _) fun _ => hrest leaf

theorem addPieces (objects : List PageObject) :
    Moves (@Tracks size) (addPieces objects) := by
  induction objects with
  | nil => exact Moves.throw _
  | cons obj others ih =>
      cases others with
      | nil => exact addSmall obj
      | cons next others =>
          exact bind (bind (addSmall obj) fun _ => Moves.pure refl _) fun _ => ih

theorem add (obj : PageObject) : Moves (@Tracks size) (add obj) :=
  bind (Moves.ofExcept refl _) fun objects => addPieces objects

theorem removeBlobKeys (tid : Nat) (keys : List Bytes) :
    Moves (@Tracks size) (removeBlobKeys tid keys) := by
  induction keys with
  | nil => exact Moves.pure refl _
  | cons key keys ih =>
      rw [Btree.removeBlobKeys]
      refine bind (searchPage _) fun result => bind (lastPage _) fun n =>
        bind (fetchPage n) fun page => Moves.ite ?_ ?_
      · exact bind (storePage _ _) fun _ => ih
      · exact ih

theorem replaceVersion (obj : PageObject) :
    Moves (@Tracks size) (replaceVersion obj) := by
  refine bind (searchPage _) fun result => bind (lastPage _) fun n =>
    bind (fetchPage n) fun page => bind (Moves.ofExcept refl _) fun page' =>
      bind (storePage n page') fun _ => ?_
  cases page.get obj.key obj.tid with
  | none => exact Moves.pure refl _
  | some own =>
      refine Moves.ite (bind (removeBlobKeys _ _) fun _ => ?_) (Moves.pure refl _)
      exact Moves.pure refl _

theorem update (obj : PageObject) : Moves (@Tracks size) (update obj) := by
  refine bind (replaceVersion obj) fun n => ?_
  refine bind (bind (add obj) fun _ => Moves.pure refl _) fun _ => ?_
  exact bind (searchPage _) fun result => bind (fixParentPages _) fun _ =>
    Moves.pure refl _

theorem expire (key : Bytes) (tid xid : Nat) :
    Moves (@Tracks size) (expire key tid xid) := by
  refine bind (searchPage _) fun result => bind (lastPage _) fun n =>
    bind (fetchPage n) fun page => bind (Moves.ofExcept refl _) fun expired => ?_
  exact Moves.ite (bind (storePage n _) fun _ => Moves.pure refl _) (Moves.pure refl _)

theorem replaceValue (obj : PageObject) (value : Bytes) :
    Moves (@Tracks size) (replaceValue obj value) := by
  refine bind (searchPage _) fun result => bind (lastPage _) fun n =>
    bind (fetchPage n) fun page => Moves.ite ?_ (Moves.throw _)
  exact bind (Moves.ofExcept refl _) fun page' => storePage n page'

end Tracks

end Vsql.Btree
