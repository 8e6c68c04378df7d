import Vsql.Btree.SearchTree
import Vsql.Statement

/-!
# Searching in every tree

The trees that are studied here are built by the changes of statements, and by the ends of
transactions, which remove objects from the pages that a transaction has written.  In such
a tree a search finds the only leaf that can hold a key.
-/

namespace Vsql.Btree

open Foundation StateError Storage

variable {size : PageSize}

/-! ## The ends of transactions -/

section

variable {t t' : Btree size} {page page' : Page size} {n : Nat}

theorem SearchTree.congr (h : SearchTree t) (hpages : t'.pages = t.pages)
    (hroot : t'.rootPage = t.rootPage) : SearchTree t' := by
  obtain hnil | ⟨s, hforest, hlinked, hok, hbound⟩ := h
  · exact .inl (hpages.trans hnil)
  · have hnodes : nodes t' = nodes t := by
      funext n
      rw [nodes, nodes, hpages]
    exact .inr ⟨s, by rwa [hnodes, hroot], by rwa [hroot], by rwa [hpages], by rwa [hpages]⟩

/-- What is done to a page at the end of a transaction. -/
structure Sweeps (page page' : Page size) : Prop where
  trims : Trims page page'
  inner : (∀ o ∈ page.objects, o.tid = 0 ∧ o.xid = 0) → page' = page

theorem SearchTree.sweep {u : Unit} (h : SearchTree t) (hpage : t.pages[n]? = some page)
    (hsweeps : Sweeps page page') (hrun : pagerStorePage n page' t = .ok u t') : SearchTree t' := by
  cases hrun
  cases hkind : page.kind with
  | leaf => exact h.trim hpage hkind hsweeps.trims rfl rfl
  | notLeaf =>
      have hsame : page' = page := by
        refine hsweeps.inner fun o ho => ?_
        obtain hnil | ⟨s, h⟩ := h
        · rw [hnil] at hpage
          cases hpage
        · obtain ⟨htid, hxid, -⟩ := ((h.page_ok hpage).objects o ho).pointer hkind
          exact ⟨htid, hxid⟩
      refine h.congr ?_ rfl
      obtain ⟨hn, rfl⟩ := List.getElem?_eq_some_iff.mp hpage
      rw [hsame]
      exact List.set_getElem_self hn

theorem sweeps_removeExpired {transactionId : Nat} (hid : transactionId ≠ 0) (page : Page size) :
    Sweeps page (removeExpired transactionId page) := by
  have hfold : ∀ (objects : List PageObject) (start : Page size),
      Trims start (objects.foldl (fun page o =>
        if o.xid = transactionId then (page.delete o.key o.tid).1 else page) start) ∧
      ((∀ o ∈ objects, o.xid = 0) → objects.foldl (fun page o =>
        if o.xid = transactionId then (page.delete o.key o.tid).1 else page) start = start) := by
    intro objects
    induction objects with
    | nil => exact fun start => ⟨.refl start, fun _ => rfl⟩
    | cons o objects ih =>
        intro start
        rw [List.foldl_cons, List.forall_mem_cons]
        split
        · next hxid =>
            refine ⟨(Trims.delete start o.key o.tid).trans (ih _).1, fun h => ?_⟩
            exact absurd (hxid.symm.trans h.1) hid
        · exact ⟨(ih start).1, fun h => (ih start).2 h.2⟩
  exact ⟨(hfold page.objects page).1, fun h => (hfold page.objects page).2 fun o ho => (h o ho).2⟩

theorem sweeps_undo {gone : Nat → Bool} (hgone : gone 0 = false)
    (h : undo gone page page.objects = .ok page') : Sweeps page page' := by
  have hrec : ∀ (objects : List PageObject) (start : Page size),
      undo gone start objects = .ok page' → Trims start page' ∧
        ((∀ o ∈ objects, o.tid = 0 ∧ o.xid = 0) → page' = start) := by
    intro objects
    induction objects with
    | nil =>
        rintro start h
        cases h
        exact ⟨.refl page', fun _ => rfl⟩
    | cons o objects ih =>
        intro start h
        rw [List.forall_mem_cons]
        rw [undo] at h
        split at h
        · next htid =>
            refine ⟨(Trims.delete start o.key o.tid).trans (ih _ h).1, fun hzero => ?_⟩
            rw [hzero.1.1, hgone] at htid
            cases htid
        · split at h
          · next hxid =>
              split at h
              · next hexpire =>
                  refine ⟨(Trims.expire hexpire).trans (ih _ h).1, fun hzero => ?_⟩
                  rw [hzero.1.2, hgone] at hxid
                  cases hxid
              · cases h
          · exact ⟨(ih _ h).1, fun hzero => (ih _ h).2 hzero.2⟩
  exact ⟨(hrec _ _ h).1, (hrec _ _ h).2⟩

theorem removeExpiredFrom_spec {transactionId : Nat} (hid : transactionId ≠ 0)
    {pageNumbers : List Nat} {refs : List PageObject} (h : SearchTree t)
    (hrun : removeExpiredFrom transactionId pageNumbers t = .ok refs t') : SearchTree t' := by
  induction pageNumbers generalizing t refs with
  | nil =>
      obtain ⟨-, rfl⟩ := pure_eq_ok.mp hrun
      exact h
  | cons pageNumber pageNumbers ih =>
      obtain ⟨page, u, hfetch, hrun⟩ := bind_eq_ok.mp hrun
      obtain ⟨hpage, rfl⟩ := fetchPage_eq_ok.mp hfetch
      obtain ⟨_, u, hstore, hrun⟩ := bind_eq_ok.mp hrun
      obtain ⟨rest, v, hmore, hlast⟩ := bind_eq_ok.mp hrun
      obtain ⟨-, rfl⟩ := pure_eq_ok.mp hlast
      exact ih (h.sweep hpage (sweeps_removeExpired hid page) hstore) hmore

theorem removeExpiredObjects_spec {transactionId : Nat} (hid : transactionId ≠ 0)
    {pageNumbers : List Nat} (h : SearchTree t)
    (hrun : removeExpiredObjects transactionId pageNumbers t = .ok () t') : SearchTree t' := by
  obtain ⟨refs, u, hexpired, hrun⟩ := bind_eq_ok.mp hrun
  have hu := removeExpiredFrom_spec hid h hexpired
  clear hexpired
  induction refs generalizing u with
  | nil =>
      obtain ⟨-, rfl⟩ := pure_eq_ok.mp hrun
      exact hu
  | cons ref refs ih =>
      obtain ⟨_, v, hremove, hrun⟩ := bind_eq_ok.mp hrun
      exact ih v hrun (removeBlobKeys_spec hu hremove)

theorem undoPages_spec {transactionId : Nat} (hid : transactionId ≠ 0) {pageNumbers : List Nat}
    (h : SearchTree t) (hrun : undoPages transactionId pageNumbers t = .ok () t') :
    SearchTree t' := by
  induction pageNumbers generalizing t with
  | nil =>
      obtain ⟨-, rfl⟩ := pure_eq_ok.mp hrun
      exact h
  | cons pageNumber pageNumbers ih =>
      obtain ⟨page, u, hfetch, hrun⟩ := bind_eq_ok.mp hrun
      obtain ⟨hpage, rfl⟩ := fetchPage_eq_ok.mp hfetch
      obtain ⟨undone, u, hfit, hrun⟩ := bind_eq_ok.mp hrun
      obtain ⟨hundo, rfl⟩ := ofExcept_eq_ok.mp hfit
      obtain ⟨_, u, hstore, hrun⟩ := bind_eq_ok.mp hrun
      refine ih (h.sweep hpage (sweeps_undo ?_ hundo) hstore) hrun
      simpa using hid.symm

theorem recoverPages_spec {deadTids pageNumbers : List Nat} (hdead : 0 ∉ deadTids)
    (h : SearchTree t) (hrun : recoverPages deadTids pageNumbers t = .ok () t') :
    SearchTree t' := by
  induction pageNumbers generalizing t with
  | nil =>
      obtain ⟨-, rfl⟩ := pure_eq_ok.mp hrun
      exact h
  | cons pageNumber pageNumbers ih =>
      obtain ⟨page, u, hfetch, hrun⟩ := bind_eq_ok.mp hrun
      obtain ⟨hpage, rfl⟩ := fetchPage_eq_ok.mp hfetch
      split at hrun
      · obtain ⟨recovered, u, hfit, hrun⟩ := bind_eq_ok.mp hrun
        obtain ⟨hundo, rfl⟩ := ofExcept_eq_ok.mp hfit
        obtain ⟨_, u, hstore, hrun⟩ := bind_eq_ok.mp hrun
        refine ih (h.sweep hpage (sweeps_undo ?_ hundo) hstore) hrun
        simpa using hdead
      · exact ih h hrun

end

/-! ## Runs -/

inductive Change where
  | add (obj : PageObject)
  | update (obj : PageObject)
  | expire (key : Bytes) (tid xid : Nat)
  | replaceValue (obj : PageObject) (value : Bytes)
  | removeExpiredObjects (transactionId : Nat) (pageNumbers : List Nat)
  | undoPages (transactionId : Nat) (pageNumbers : List Nat)
  | recoverPages (deadTids pageNumbers : List Nat)

namespace Change

def run : Change → BtreeM size Unit
  | add obj => discard (Btree.add obj)
  | update obj => discard (Btree.update obj)
  | expire key tid xid => discard (Btree.expire key tid xid)
  | replaceValue obj value => Btree.replaceValue obj value
  | removeExpiredObjects transactionId pageNumbers =>
      Storage.removeExpiredObjects transactionId pageNumbers
  | undoPages transactionId pageNumbers => Storage.undoPages transactionId pageNumbers
  | recoverPages deadTids pageNumbers => Storage.recoverPages deadTids pageNumbers

/-- What the callers take care of: keys that fit into pointers, no third version of a key, and
transactions that have a number. -/
def Allowed (t : Btree size) : Change → Prop
  | add obj => KeyOk size obj.key ∧ AddsWithRoom obj t
  | update obj => KeyOk size obj.key ∧
      ∀ n u, replaceVersion obj t = .ok n u → AddsWithRoom obj u
  | expire _ _ _ => True
  | replaceValue obj value =>
      pageObjectPrefixLength + obj.key.length + value.length ≤ maxAllowedInPage size / 2
  | removeExpiredObjects transactionId _ => transactionId ≠ 0
  | undoPages transactionId _ => transactionId ≠ 0
  | recoverPages deadTids _ => 0 ∉ deadTids

theorem spec {t t' : Btree size} {change : Change} (h : SearchTree t) (hallowed : change.Allowed t)
    (hrun : change.run t = .ok () t') : SearchTree t' := by
  cases change with
  | add obj =>
      obtain ⟨r, hrun⟩ := discard_eq_ok.mp hrun
      exact add_spec h hallowed.1 hallowed.2 hrun
  | update obj =>
      obtain ⟨r, hrun⟩ := discard_eq_ok.mp hrun
      exact update_spec h hallowed.1 hallowed.2 hrun
  | expire key tid xid =>
      obtain ⟨r, hrun⟩ := discard_eq_ok.mp hrun
      exact expire_spec h hrun
  | replaceValue obj value => exact replaceValue_spec h hallowed hrun
  | removeExpiredObjects transactionId pageNumbers =>
      exact removeExpiredObjects_spec hallowed h hrun
  | undoPages transactionId pageNumbers => exact undoPages_spec hallowed h hrun
  | recoverPages deadTids pageNumbers => exact recoverPages_spec hallowed h hrun

end Change

/-- The trees that changes build. -/
inductive Built : Btree size → Prop where
  | empty : Built empty
  | change {t t' : Btree size} {change : Change} (h : Built t) (hallowed : change.Allowed t)
      (hrun : change.run t = .ok () t') : Built t'
  -- A statement starts without written pages.
  | begin {t : Btree size} (h : Built t) : Built { t with writtenPages := [] }

theorem Built.searchTree {t : Btree size} (h : Built t) : SearchTree t := by
  induction h with
  | empty => exact .inl rfl
  | change _ hallowed hrun ih => exact Change.spec ih hallowed hrun
  | begin _ ih => exact ih.congr rfl rfl

/-- Adds objects as long as there is room for them. -/
def addFitting : List PageObject → Btree size → Btree size
  | [], t => t
  | obj :: others, t =>
      match pieces size obj, add obj t with
      | .ok objects, .ok _ t' =>
          if obj.key ≠ [] ∧
              pageObjectPrefixLength + obj.key.length + 4 ≤ maxAllowedInPage size / 2 ∧
              haveRoom objects t then
            addFitting others t'
          else t
      | _, _ => t

theorem Built.addFitting {objects : List PageObject} {t : Btree size} (h : Built t) :
    Built (addFitting objects t) := by
  induction objects generalizing t with
  | nil => exact h
  | cons obj others ih =>
      rw [Btree.addFitting]
      split
      · next objects n t' hpieces hadd =>
          split
          · next hallowed =>
              obtain ⟨hne, hhalf, hroom⟩ := hallowed
              refine ih (@Built.change _ _ _ (.add obj) h
                ⟨⟨hne, hhalf⟩, fun objects' hobjects => ?_⟩ ?_)
              · rw [hpieces] at hobjects
                cases hobjects
                exact haveRoom_iff.mp hroom
              · exact discard_eq_ok.mpr ⟨n, hadd⟩
          · exact h
      · exact h

/-- A root with two leaves. -/
def smallTree : Btree smallPage :=
  addFitting [keyObject 1 3 26, keyObject 2 3 26, keyObject 3 3 26] empty

theorem built_smallTree : Built smallTree := .addFitting .empty

/-! ## Searching -/

section

variable {t : Btree size} {free : Set Nat} {pending : Option Bytes} {s : Shape Bytes}

theorem Growing.searchFrom_ok (h : Growing t pending free s) (key : Bytes) {fuel n : Nat}
    (hn : n < t.pages.length) (hfuel : s.level n < fuel) :
    ∃ result, searchFrom key fuel n t = .ok result t := by
  induction fuel generalizing n with
  | zero => omega
  | succ fuel ih =>
      obtain ⟨page, hpage⟩ : ∃ page, t.pages[n]? = some page := ⟨_, List.getElem?_eq_getElem hn⟩
      have hfetch : fetchPage n t = .ok page t := fetchPage_eq_ok.mpr ⟨hpage, rfl⟩
      cases hkind : page.kind with
      | leaf =>
          refine ⟨([n], []), ?_⟩
          rw [searchFrom, bind_eq_ok]
          exact ⟨page, t, hfetch, by simp only [hkind]; rfl⟩
      | notLeaf =>
          obtain ⟨hnode, -⟩ := h.inner hpage hkind
          have hne : page.objects ≠ [] := by
            have hentries := (h.forest.ok n _ hnode).1
            simpa using hentries
          have hindex : pointerIndex key page.objects < page.objects.length := by
            have hpos := List.length_pos_iff.mpr hne
            unfold pointerIndex
            omega
          have ho := List.getElem?_eq_getElem hindex
          generalize page.objects[pointerIndex key page.objects] = o at ho
          obtain ⟨hstored, hlevel⟩ := h.below hpage hkind (List.mem_of_getElem? ho)
          obtain ⟨⟨path, depth⟩, hbelow⟩ := ih hstored (by omega)
          refine ⟨(n :: path, pointerIndex key page.objects :: depth), ?_⟩
          rw [searchFrom, bind_eq_ok]
          refine ⟨page, t, hfetch, ?_⟩
          simp only [hkind, ho]
          exact bind_eq_ok.mpr ⟨(path, depth), t, hbelow, rfl⟩

theorem Growing.searchPage_ok (h : Growing t pending free s) (key : Bytes) :
    ∃ result, searchPage key t = .ok result t := by
  have hlevel := h.forest.level_lt (fun n hn => nodes_isSome.mp hn) key
  exact h.searchFrom_ok key (nodes_isSome.mp h.forest.root_some)
    (Nat.lt_of_lt_of_le hlevel h.bound)

/-- A search ends at the only leaf that can hold its key. -/
theorem Growing.leaf_unique {t' : Btree size} {key : Bytes} {result : List Nat × List Nat} {n : Nat}
    (h : Growing t none ∅ s) (hsearch : searchPage key t = .ok result t')
    (hlast : result.1.getLast? = some n) (m : Nat) (leaf : Page size)
    (hleaf : t.pages[m]? = some leaf) (hkind : leaf.kind = .leaf) (o : PageObject)
    (ho : o ∈ leaf.objects) (hkey : o.key = key) : m = n := by
  obtain ⟨found, hleads⟩ := searchPage_leads hsearch
  obtain rfl : found = n := Option.some.inj (hleads.chain.getLast?.symm.trans hlast)
  have hnode := nodes_eq_some hleaf
  rw [hkind] at hnode
  obtain ⟨-, -, hspan⟩ := h.forest.ok m _ hnode
  obtain ⟨top, path', htop, hchain⟩ := h.forest.exists_chain
    (show (nodes t m).isSome by rw [hnode]; rfl)
  obtain rfl : top = t.rootPage := htop.resolve_right (Set.notMem_empty top)
  have hmem : key ∈ s.span m := hkey ▸ hspan o.key (List.mem_map_of_mem ho)
  exact (h.forest.leads_unique hchain hnode hmem hleads).symm

end

/-- A search for any key ends at the only leaf that can hold it. -/
theorem Built.search_finds {t : Btree size} (h : Built t) (hpages : t.pages ≠ []) (key : Bytes) :
    ∃ path depthIterator n page, searchPage key t = .ok (path, depthIterator) t ∧
      LeafPath t path n page ∧ (versionsOf key page.objects).length ≤ 2 ∧
      versionsOf key (leafObjects t) = versionsOf key page.objects := by
  obtain ⟨s, hgrowing⟩ := h.searchTree.resolve_left hpages
  obtain ⟨⟨path, depthIterator⟩, hsearch⟩ := hgrowing.searchPage_ok key
  obtain ⟨-, n, page, hpath⟩ := searchPage_ok hsearch
  refine ⟨path, depthIterator, n, page, hsearch, hpath,
    (hgrowing.page_ok hpath.stored).versions hpath.kind key, ?_⟩
  exact versionsOf_leafObjects hpath.stored hpath.kind (hgrowing.leaf_unique hsearch hpath.last)

theorem search_smallTree : ∃ path depthIterator n page,
    searchPage [2] smallTree = .ok (path, depthIterator) smallTree ∧
      LeafPath smallTree path n page ∧ (versionsOf [2] page.objects).length ≤ 2 ∧
      versionsOf [2] (leafObjects smallTree) = versionsOf [2] page.objects :=
  built_smallTree.search_finds (by decide +kernel) [2]

end Vsql.Btree
