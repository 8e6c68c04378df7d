import Vsql.Btree.Contents
import Vsql.Btree.LowerBounds

/-!
# Every operation leaves a search tree

An addition makes the new key pending on the way to its leaf, puts it there, and settles
the pointers above.  The other operations only change what is in a leaf.
-/

namespace Vsql.Btree

open Foundation StateError

variable {size : PageSize}

def SearchTree (t : Btree size) : Prop := t.pages = [] ∨ ∃ s, Growing t none ∅ s

/-- Two pointers with the key fit into a page. -/
structure KeyOk (size : PageSize) (key : Bytes) : Prop where
  ne : key ≠ []
  pointer_half : pageObjectPrefixLength + key.length + 4 ≤ maxAllowedInPage size / 2

/-- A leaf that has to be split for an object does not have two versions of it. -/
def HasRoom (obj : PageObject) (t : Btree size) : Prop :=
  ∀ page, leafToSplit obj t = some page → (versionsOf obj.key page.objects).length < 2

def HaveRoom : List PageObject → Btree size → Prop
  | [], _ => True
  | obj :: others, t =>
      HasRoom obj t ∧ ∀ n t', addSmall obj t = .ok n t' → HaveRoom others t'

/-- Whether there is room. -/
def haveRoom : List PageObject → Btree size → Bool
  | [], _ => true
  | obj :: others, t =>
      ((leafToSplit obj t).all fun page => (versionsOf obj.key page.objects).length < 2) &&
        match addSmall obj t with
        | .ok _ t' => haveRoom others t'
        | .error _ _ => true

section

variable {t t' : Btree size} {s : Shape Bytes} {path : List Nat} {n : Nat}
variable {page page' : Page size} {obj : PageObject} {k : Bytes}

theorem haveRoom_iff {objects : List PageObject} : haveRoom objects t ↔ HaveRoom objects t := by
  induction objects generalizing t with
  | nil => exact iff_of_true rfl trivial
  | cons obj others ih =>
      rw [haveRoom, HaveRoom, Bool.and_eq_true, HasRoom, Option.all_eq_true]
      refine and_congr (by simp only [decide_eq_true_eq]) ?_
      cases hrun : addSmall obj t with
      | error e u => simp
      | ok n u => simp [ih]

theorem pageOk_of_add_new (h : (Page.new .leaf : Page size).add obj = .ok page')
    (hobj : ObjectOk size .leaf obj) : PageOk page' := by
  obtain ⟨hkind, hobjects⟩ := kind_add h
  refine ⟨fun o ho => ?_, pairwise_sortObjects_append h,
    fun _ => length_versionsOf_add h fun _ => Nat.zero_le _⟩
  rw [hobjects, (sortObjects_perm _).mem_iff, List.mem_append, List.mem_singleton] at ho
  obtain ho | rfl := ho
  · cases ho
  · rw [hkind]
    exact hobj

/-- The first page. -/
theorem growing_single (hpages : t.pages = [page]) (hroot : t.rootPage = 0)
    (hkind : page.kind = .leaf) (hpage : PageOk page) :
    Growing t none ∅ ⟨fun _ => 0, fun _ => Set.univ, fun _ => none, fun _ => none⟩ := by
  have hleaf : nodes t 0 = some (.leaf (page.objects.map (·.key))) := by
    rw [nodes_eq_some (show t.pages[0]? = some page by rw [hpages]; rfl), hkind]
    rfl
  have hzero : ∀ n, (nodes t n).isSome → n = 0 := by
    intro n hn
    rw [nodes_isSome, hpages, List.length_singleton] at hn
    omega
  refine ⟨⟨?_, fun _ => trivial, fun _ hn => absurd hn (Set.notMem_empty _), fun _ _ => rfl,
    fun _ _ => le_rfl, fun n hn hne _ => ?_, fun p entries e hp _ => ?_, fun n node hn => ?_⟩,
    Set.notMem_empty _, fun q hq => ?_, ?_⟩
  · rw [hroot, hleaf]
    rfl
  · exact absurd ((hzero n hn).trans hroot.symm) hne
  · obtain rfl := hzero p (by rw [hp]; rfl)
    rw [hleaf] at hp
    cases hp
  · obtain rfl := hzero n (by rw [hn]; rfl)
    rw [hleaf] at hn
    cases hn
    exact ⟨rfl, List.pairwise_map.mpr hpage.ordered, fun _ _ => trivial⟩
  · rw [hpages, List.mem_singleton] at hq
    rwa [hq]
  · rw [hpages, List.length_singleton, maxPages]
    omega

/-- Before a new object is put into its leaf. -/
theorem Growing.splitting (h : Growing t none ∅ s)
    (hleads : Descends (nodes t) obj.key t.rootPage path n)
    (hpage : t.pages[n]? = some page) (hkind : page.kind = .leaf) (hobj : ObjectOk size .leaf obj)
    (hroom : (versionsOf obj.key page.objects).length < 2) :
    Splitting t path n .leaf (insertObject obj page.objects) (some obj.key) ∅
      (widenShape s obj.key path) := by
  have hok := h.page_ok hpage
  have hwidened := h.forest.widen hleads
  have hnode := nodes_eq_some hpage
  rw [hkind] at hnode
  have hperm := insertObject_perm obj page.objects
  obtain ⟨-, -, hspan⟩ := hwidened.ok n _ hnode
  refine ⟨(List.getElem?_eq_some_iff.mp hpage).1, hwidened.setLeaf hnode ?_ fun y hy => ?_,
    h.forest.chain_update hleads.chain _, Set.notMem_empty _, h.pages, h.bound, fun o ho => ?_,
    fun _ key => ?_⟩
  · exact List.pairwise_map.mpr (insertObject_ordered obj hok.ordered)
  · obtain ⟨o, ho, rfl⟩ := List.mem_map.mp hy
    obtain rfl | ho := List.mem_cons.mp (hperm.mem_iff.mp ho)
    · exact mem_widenShape.mpr (.inl ⟨hleads.last_mem, rfl⟩)
    · exact hspan o.key (List.mem_map_of_mem ho)
  · obtain rfl | ho := List.mem_cons.mp (hperm.mem_iff.mp ho)
    · exact hobj
    · have ho' := hok.objects o ho
      rwa [hkind] at ho'
  · rw [versionsOf, (hperm.filter _).length_eq]
    exact length_versionsOf_cons hroom (hok.versions hkind) key

/-- The rest of an addition, after the object has been put into a leaf. -/
theorem searchTree_of_pending {u v : Btree size} {r m : Nat}
    {next : List Nat × List Nat → BtreeM size Nat}
    (h : Growing u (some k) ∅ s) (hobj : obj ∈ leafObjects u) (hkey : obj.key = k)
    (hrun : (searchPage k >>= next) u = .ok r v)
    (hnext : ∀ path depthIterator, next (path, depthIterator) = do
      fixParentPages path
      pure m) : SearchTree v := by
  obtain ⟨leafNumber, leaf, hleaf, hkind, hmem⟩ := mem_leafObjects.mp hobj
  have hnode := nodes_eq_some hleaf
  rw [hkind] at hnode
  obtain ⟨⟨path, depthIterator⟩, w, hsearch, hrun⟩ := bind_eq_ok.mp hrun
  have hunsettled := Unsettled.search h hnode (hkey ▸ List.mem_map_of_mem hmem) hsearch
  obtain ⟨rfl, -⟩ := searchPage_ok hsearch
  rw [hnext] at hrun
  obtain ⟨_, x, hfix, hlast⟩ := bind_eq_ok.mp hrun
  obtain ⟨-, rfl⟩ := pure_eq_ok.mp hlast
  exact .inr (fixParentPages_spec hunsettled hfix)

theorem addSmall_spec {r : Nat} (h : SearchTree t) (hobj : ObjectOk size .leaf obj)
    (hroom : HasRoom obj t) (hrun : addSmall obj t = .ok r t') : SearchTree t' := by
  obtain ⟨total, u, htotal, hnext⟩ := bind_eq_ok.mp hrun
  obtain ⟨rfl, rfl⟩ := totalPages_eq_ok.mp htotal
  split at hnext
  · next hempty =>
      obtain ⟨page, u, hpage, hnext⟩ := bind_eq_ok.mp hnext
      obtain ⟨hadd, rfl⟩ := ofExcept_eq_ok.mp hpage
      obtain ⟨n, v, happend, hnext⟩ := bind_eq_ok.mp hnext
      obtain ⟨-, rfl, rfl⟩ := appendPage_eq_ok.mp happend
      obtain ⟨_, w, hroot, hlast⟩ := bind_eq_ok.mp hnext
      obtain ⟨-, rfl⟩ := pure_eq_ok.mp hlast
      have heq := setRootPage_eq_ok.mp hroot
      subst heq
      have hnil : t.pages = [] := List.length_eq_zero_iff.mp hempty
      have hpages : t.pages ++ [page] = [page] := by rw [hnil, List.nil_append]
      exact .inr ⟨_, growing_single hpages hempty (kind_add hadd).1 (pageOk_of_add_new hadd hobj)⟩
  · next hnonempty =>
      obtain ⟨s, h⟩ := h.resolve_left (by simpa using hnonempty)
      obtain ⟨path, depthIterator, n, page, hsearch, hpath, hnext⟩ :=
        searchLeaf_ok hnext fun _ _ => rfl
      obtain ⟨m, hleads⟩ := searchPage_leads hsearch
      obtain rfl : n = m := Option.some.inj (hpath.last.symm.trans hleads.chain.getLast?)
      split at hnext
      · obtain ⟨page', u, hfit, hnext⟩ := bind_eq_ok.mp hnext
        obtain ⟨hadd, rfl⟩ := ofExcept_eq_ok.mp hfit
        obtain ⟨_, v, hstore, hnext⟩ := bind_eq_ok.mp hnext
        have hsplitting := h.splitting hleads hpath.stored hpath.kind hobj (room_of_add hadd)
        have hstored := storePage_eq_ok.mp hstore
        have hpages : v.pages = t.pages.set n page' := by rw [← hstored]
        obtain ⟨-, hgrowing, -⟩ := hsplitting.store hpath.kind hadd hpages (by rw [← hstored])
        refine searchTree_of_pending hgrowing ?_ rfl hnext fun _ _ => rfl
        obtain ⟨hkind, hobjects⟩ := kind_add hadd
        refine mem_leafObjects.mpr ⟨n, page', ?_, hkind.trans hpath.kind, ?_⟩
        · rw [hpages, List.getElem?_set_self hsplitting.stored]
        · rw [hobjects, (sortObjects_perm _).mem_iff]
          simp
      · next hfull =>
          obtain ⟨_, u, hsplit, hnext⟩ := bind_eq_ok.mp hnext
          have hsplitting := h.splitting hleads hpath.stored hpath.kind hobj
            (hroom page (leafToSplit_of_full hsearch hpath.last hpath.stored hfull))
          obtain ⟨s', hgrowing, -⟩ := splitPage_spec hsplitting
            (fun _ y hy => (Option.some.inj hy).symm) hsplit
          refine searchTree_of_pending hgrowing ?_ rfl hnext fun _ _ => rfl
          rw [(splitPage_leafObjects hpath hsplit).mem_iff]
          exact List.mem_cons_self

theorem addPieces_spec {objects : List PageObject} {r : Nat} (h : SearchTree t)
    (hobjects : ∀ o ∈ objects, ObjectOk size .leaf o) (hroom : HaveRoom objects t)
    (hrun : addPieces objects t = .ok r t') : SearchTree t' := by
  induction objects generalizing t with
  | nil => cases hrun
  | cons obj others ih =>
      have hobj := hobjects obj List.mem_cons_self
      cases others with
      | nil => exact addSmall_spec h hobj hroom.1 hrun
      | cons next others =>
          obtain ⟨_, u, hfirst, hmore⟩ := bind_eq_ok.mp hrun
          obtain ⟨n, v, hadd, hlast⟩ := bind_eq_ok.mp hfirst
          obtain ⟨-, rfl⟩ := pure_eq_ok.mp hlast
          exact ih (addSmall_spec h hobj hroom.1 hadd)
            (fun o ho => hobjects o (List.mem_cons_of_mem _ ho)) (hroom.2 n _ hadd) hmore

/-! ## The parts of an object -/

theorem blobParts_ok {b fuel part : Nat} {remaining : Bytes} (hkey : KeyOk size obj.key)
    (hb : blobSize size obj.key = b) (hpos : 1 ≤ b) :
    ∀ o ∈ blobParts obj b fuel part remaining, ObjectOk size .leaf o := by
  have hlength : (PageObject.blobObjectKey obj.key 0).length = obj.key.length + 6 := by
    simp [PageObject.blobObjectKey, length_writeU32]
  have hhalf : pageObjectPrefixLength + obj.key.length + 11 + b = maxAllowedInPage size / 2 := by
    rw [blobSize, hlength] at hb
    omega
  induction fuel generalizing part remaining with
  | zero => simp [blobParts]
  | succ fuel ih =>
      rw [blobParts]
      split
      · rw [List.forall_mem_cons]
        refine ⟨⟨?_, ?_, ?_, fun h => by cases h⟩, ih⟩
        · simp [PageObject.newBlobObject, PageObject.blobObjectKey]
        · simp [PageObject.newBlobObject, PageObject.blobObjectKey, PageObject.length,
            length_writeU32]
          omega
        · simp [PageObject.newBlobObject, PageObject.blobObjectKey, length_writeU32]
          omega
      · have hreference : ∀ hasFragment,
            ObjectOk size .leaf (.newReferenceObject obj.key obj.tid obj.xid part hasFragment) := by
          refine fun _ => ⟨hkey.ne, ?_, hkey.pointer_half, fun h => by cases h⟩
          simp [PageObject.newReferenceObject, PageObject.length, length_writeU32]
          omega
        split
        · simpa using hreference false
        · refine List.forall_mem_cons.mpr ⟨⟨?_, ?_, ?_, fun h => by cases h⟩, by
            simpa using hreference true⟩
          · simp [PageObject.newFragmentObject, PageObject.fragmentObjectKey]
          · simp [PageObject.newFragmentObject, PageObject.fragmentObjectKey, PageObject.length]
            omega
          · simp [PageObject.newFragmentObject, PageObject.fragmentObjectKey]
            omega

theorem pieces_ok {objects : List PageObject} (hkey : KeyOk size obj.key)
    (h : pieces size obj = .ok objects) : ∀ o ∈ objects, ObjectOk size .leaf o := by
  unfold pieces at h
  split at h
  · split at h
    · cases h
    · next hblob =>
        cases h
        exact blobParts_ok hkey (by omega) (by omega)
  · next hsmall =>
      cases h
      rw [List.forall_mem_singleton]
      exact ⟨hkey.ne, not_lt.mp hsmall, hkey.pointer_half, fun h => by cases h⟩

def AddsWithRoom (obj : PageObject) (t : Btree size) : Prop :=
  ∀ objects, pieces size obj = .ok objects → HaveRoom objects t

theorem add_spec {r : Nat} (h : SearchTree t) (hkey : KeyOk size obj.key)
    (hroom : AddsWithRoom obj t) (hrun : add obj t = .ok r t') : SearchTree t' := by
  obtain ⟨objects, u, hfirst, hadd⟩ := bind_eq_ok.mp hrun
  obtain ⟨hpieces, rfl⟩ := ofExcept_eq_ok.mp hfirst
  exact addPieces_spec h (pieces_ok hkey hpieces) (hroom objects hpieces) hadd

/-! ## Changes of a leaf -/

/-- An object without the transaction that deleted it. -/
def unexpired (o : PageObject) : PageObject := { o with xid := 0 }

/-- Objects are removed, or change the transaction that deleted them. -/
structure Trims (page page' : Page size) : Prop where
  kind : page'.kind = page.kind
  sublist : (page'.objects.map unexpired).Sublist (page.objects.map unexpired)

namespace Trims

theorem refl (page : Page size) : Trims page page := ⟨rfl, List.Sublist.refl _⟩

theorem trans {page'' : Page size} (first : Trims page page') (second : Trims page' page'') :
    Trims page page'' :=
  ⟨second.kind.trans first.kind, second.sublist.trans first.sublist⟩

theorem delete (page : Page size) (key : Bytes) (tid : Nat) : Trims page (page.delete key tid).1 :=
  ⟨rfl, List.filter_sublist.map _⟩

theorem expire {key : Bytes} {tid xid : Nat} {modified : Bool}
    (h : page.expire key tid xid = .ok (page', modified)) : Trims page page' := by
  obtain ⟨hkind, hobjects⟩ := expire_ok h
  refine ⟨hkind, ?_⟩
  have hsame : unexpired ∘ Page.setXid key tid xid = unexpired := by
    funext o
    simp only [Function.comp_apply, Page.setXid]
    split <;> rfl
  rw [hobjects, List.map_map, hsame]

theorem update {tid : Nat} (h : page.update obj tid = .ok page') : Trims page page' := by
  unfold Page.update at h
  split at h
  · split at h
    · cases h
      exact .delete page _ _
    · cases hexpire : page.expire obj.key _ tid with
      | error e =>
          rw [hexpire] at h
          cases h
      | ok result =>
          rw [hexpire] at h
          cases h
          exact .expire hexpire
  · cases h
    exact .delete page _ _
  · cases h
    exact .refl page

theorem mem {o : PageObject} (h : Trims page page') (ho : o ∈ page'.objects) :
    ∃ o' ∈ page.objects, o.key = o'.key ∧ o.length = o'.length ∧ o.tid = o'.tid := by
  obtain ⟨o', ho', heq⟩ := List.mem_map.mp (h.sublist.subset (List.mem_map_of_mem ho))
  obtain ⟨key, value, isBlobRef, tid, xid⟩ := o
  obtain ⟨key', value', isBlobRef', tid', xid'⟩ := o'
  cases heq
  exact ⟨_, ho', rfl, rfl, rfl⟩

theorem keys (h : Trims page page') :
    (page'.objects.map (·.key)).Sublist (page.objects.map (·.key)) := by
  have hkeys := h.sublist.map (·.key)
  rwa [List.map_map, List.map_map] at hkeys

theorem pageOk (h : Trims page page') (hkind : page.kind = .leaf) (hpage : PageOk page) :
    PageOk page' := by
  refine ⟨fun o ho => ?_, ?_, fun _ key => ?_⟩
  · obtain ⟨o', ho', hkey, hlength, -⟩ := h.mem ho
    obtain ⟨hne, hhalf, hpointer, -⟩ := hpage.objects o' ho'
    exact ⟨hkey ▸ hne, hlength ▸ hhalf, hkey ▸ hpointer,
      fun hinner => by rw [h.kind, hkind] at hinner; cases hinner⟩
  · exact List.pairwise_map.mp ((List.pairwise_map.mpr hpage.ordered).sublist h.keys)
  · refine le_trans ?_ (hpage.versions hkind key)
    have hcount : ∀ objects : List PageObject,
        (versionsOf key objects).length = (objects.map (·.key)).count key := by
      intro objects
      rw [versionsOf, ← List.countP_eq_length_filter, List.count, List.countP_map]
      refine List.countP_congr fun o _ => ?_
      rw [decide_eq_true_iff, Function.comp_apply, beq_iff_eq]
    rw [hcount, hcount]
    exact h.keys.count_le key

end Trims

/-- A leaf gets another content. -/
theorem Growing.setLeaf (h : Growing t none ∅ s) (hpage : t.pages[n]? = some page)
    (hkind : page.kind = .leaf) (hkind' : page'.kind = .leaf) (hok : PageOk page')
    (hkeys : ∀ o ∈ page'.objects, ∃ o' ∈ page.objects, o.key = o'.key)
    (hpages : t'.pages = t.pages.set n page') (hroot : t'.rootPage = t.rootPage) :
    Growing t' none ∅ s := by
  have hn := (List.getElem?_eq_some_iff.mp hpage).1
  have hnode := nodes_eq_some hpage
  rw [hkind] at hnode
  obtain ⟨-, -, hspan⟩ := h.forest.ok n _ hnode
  refine ⟨?_, Set.notMem_empty _, fun q hq => ?_, ?_⟩
  · rw [nodes_set hpages hn, hroot, hkind']
    refine h.forest.setLeaf hnode (List.pairwise_map.mpr hok.ordered) fun y hy => ?_
    obtain ⟨o, ho, rfl⟩ := List.mem_map.mp hy
    obtain ⟨o', ho', hkey⟩ := hkeys o ho
    rw [hkey]
    exact hspan o'.key (List.mem_map_of_mem ho')
  · rw [hpages] at hq
    obtain hq | rfl := List.mem_or_eq_of_mem_set hq
    · exact h.pages q hq
    · exact hok
  · rw [hpages, List.length_set]
    exact h.bound

theorem SearchTree.trim (h : SearchTree t) (hpage : t.pages[n]? = some page)
    (hkind : page.kind = .leaf) (htrims : Trims page page')
    (hpages : t'.pages = t.pages.set n page')
    (hroot : t'.rootPage = t.rootPage) : SearchTree t' := by
  obtain hnil | ⟨s, h⟩ := h
  · rw [hnil] at hpage
    cases hpage
  · refine .inr ⟨s, h.setLeaf hpage hkind (htrims.kind.trans hkind)
      (htrims.pageOk hkind (h.page_ok hpage)) (fun o ho => ?_) hpages hroot⟩
    obtain ⟨o', ho', hkey, -⟩ := htrims.mem ho
    exact ⟨o', ho', hkey⟩

theorem SearchTree.storePage {u : Unit} (h : SearchTree t) (hpage : t.pages[n]? = some page)
    (hkind : page.kind = .leaf) (htrims : Trims page page')
    (hrun : storePage n page' t = .ok u t') : SearchTree t' := by
  have hstored := storePage_eq_ok.mp hrun
  exact h.trim hpage hkind htrims (by rw [← hstored]) (by rw [← hstored])

theorem removeBlobKeys_spec {tid : Nat} {keys : List Bytes} (h : SearchTree t)
    (hrun : removeBlobKeys tid keys t = .ok () t') : SearchTree t' := by
  induction keys generalizing t with
  | nil =>
      obtain ⟨-, rfl⟩ := pure_eq_ok.mp hrun
      exact h
  | cons key keys ih =>
      rw [removeBlobKeys] at hrun
      obtain ⟨path, depthIterator, n, page, -, hpath, hnext⟩ :=
        searchLeaf_ok hrun fun _ _ => rfl
      split at hnext
      · obtain ⟨_, u, hstore, hmore⟩ := bind_eq_ok.mp hnext
        exact ih (h.storePage hpath.stored hpath.kind (.delete page key tid) hstore) hmore
      · exact ih h hnext

theorem replaceVersion_spec {r : Nat} (h : SearchTree t)
    (hrun : replaceVersion obj t = .ok r t') : SearchTree t' := by
  obtain ⟨path, depthIterator, n, page, -, hpath, hnext⟩ :=
    searchLeaf_ok hrun fun _ _ => rfl
  obtain ⟨page', u, hfit, hnext⟩ := bind_eq_ok.mp hnext
  obtain ⟨hupdate, rfl⟩ := ofExcept_eq_ok.mp hfit
  obtain ⟨_, v, hstore, hnext⟩ := bind_eq_ok.mp hnext
  have hv := h.storePage hpath.stored hpath.kind (.update hupdate) hstore
  cases hown : page.get obj.key obj.tid with
  | none =>
      simp only [hown] at hnext
      obtain ⟨-, rfl⟩ := pure_eq_ok.mp hnext
      exact hv
  | some own =>
      simp only [hown] at hnext
      split at hnext
      · obtain ⟨_, w, hremove, hlast⟩ := bind_eq_ok.mp hnext
        obtain ⟨-, rfl⟩ := pure_eq_ok.mp hlast
        exact removeBlobKeys_spec hv hremove
      · obtain ⟨-, rfl⟩ := pure_eq_ok.mp hnext
        exact hv

theorem expire_spec {key : Bytes} {tid xid : Nat} {r : Option Nat} (h : SearchTree t)
    (hrun : expire key tid xid t = .ok r t') : SearchTree t' := by
  obtain ⟨path, depthIterator, n, page, -, hpath, hnext⟩ :=
    searchLeaf_ok hrun fun _ _ => rfl
  obtain ⟨⟨page', modified⟩, u, hfit, hnext⟩ := bind_eq_ok.mp hnext
  obtain ⟨hexpire, rfl⟩ := ofExcept_eq_ok.mp hfit
  simp only at hnext
  split at hnext
  · obtain ⟨_, v, hstore, hlast⟩ := bind_eq_ok.mp hnext
    obtain ⟨-, rfl⟩ := pure_eq_ok.mp hlast
    exact h.storePage hpath.stored hpath.kind (.expire hexpire) hstore
  · obtain ⟨-, rfl⟩ := pure_eq_ok.mp hnext
    exact h

theorem replaceValue_spec {value : Bytes} (h : SearchTree t)
    (hvalue : pageObjectPrefixLength + obj.key.length + value.length ≤ maxAllowedInPage size / 2)
    (hrun : replaceValue obj value t = .ok () t') : SearchTree t' := by
  obtain ⟨path, depthIterator, n, page, -, hpath, hnext⟩ :=
    searchLeaf_ok hrun fun _ _ => rfl
  split at hnext
  · next hdeleted =>
      obtain ⟨page', u, hfit, hstore⟩ := bind_eq_ok.mp hnext
      obtain ⟨hadd, rfl⟩ := ofExcept_eq_ok.mp hfit
      have hstored := storePage_eq_ok.mp hstore
      obtain hnil | ⟨s, h⟩ := h
      · have hpage := hpath.stored
        rw [hnil] at hpage
        cases hpage
      -- The object that is deleted has the same key.
      obtain ⟨old, hold, hkey, -⟩ : ∃ o ∈ page.objects, o.key = obj.key ∧ o.tid = obj.tid := by
        simpa [Page.delete] using hdeleted
      have hok := (Trims.delete page obj.key obj.tid).pageOk hpath.kind (h.page_ok hpath.stored)
      obtain ⟨hne, -, hpointer, -⟩ := (h.page_ok hpath.stored).objects old hold
      rw [hkey] at hne hpointer
      obtain ⟨hkind, hobjects⟩ := kind_add hadd
      have hmem : ∀ o ∈ page'.objects, o ∈ (page.delete obj.key obj.tid).1.objects ∨
          o = ⟨obj.key, value, false, obj.tid, obj.xid⟩ := by
        intro o ho
        rw [hobjects, (sortObjects_perm _).mem_iff] at ho
        simpa using ho
      refine .inr ⟨s, h.setLeaf hpath.stored hpath.kind (hkind.trans hpath.kind)
        ⟨fun o ho => ?_, pairwise_sortObjects_append hadd, fun _ =>
          length_versionsOf_add hadd (hok.versions hpath.kind)⟩ (fun o ho => ?_)
        (by rw [← hstored]) (by rw [← hstored])⟩
      · rw [hkind]
        obtain ho | rfl := hmem o ho
        · exact hok.objects o ho
        · exact ⟨hne, hvalue, hpointer, fun hinner => by
            have hleaf := hpath.kind
            rw [show page.kind = _ from hinner] at hleaf
            cases hleaf⟩
      · obtain ho | rfl := hmem o ho
        · exact ⟨o, delete_objects_subset ho, rfl⟩
        · exact ⟨old, hold, hkey.symm⟩
  · cases hnext

theorem Growing.pend (h : Growing t none ∅ s) (k : Bytes) : Growing t (some k) ∅ s := by
  obtain ⟨⟨hroot, hspan, hfree, htop, hlevel, hlinked, hclosed, hok⟩, hrest, hpages, hbound⟩ := h
  refine ⟨⟨hroot, hspan, hfree, htop, hlevel, hlinked, hclosed, fun n node hn => ?_⟩, hrest,
    hpages, hbound⟩
  have hnode := hok n node hn
  cases node with
  | leaf keys => exact hnode
  | inner entries =>
      obtain ⟨hne, hentries, hpairs, hhead⟩ := hnode
      refine ⟨hne, hentries, hpairs, fun e he y hy => .inl ?_⟩
      exact (hhead e he y hy).resolve_right (by simp)

/-- The pointers above a leaf can be settled again. -/
theorem fixParentPages_settled (h : Growing t none ∅ s) (hpath : LeafPath t path n page)
    (hchain : Chain (nodes t) t.rootPage path n) (hrun : fixParentPages path t = .ok () t') :
    SearchTree t' := by
  have hnode := nodes_eq_some hpath.stored
  rw [hpath.kind] at hnode
  cases hobjects : page.objects with
  | cons o objects =>
      refine .inr (fixParentPages_spec ⟨h.pend o.key, hchain, hnode, ?_⟩ hrun)
      rw [hobjects]
      exact List.mem_cons_self
  | nil =>
      unfold fixParentPages at hrun
      generalize maxPages = fuel at hrun
      cases fuel with
      | zero => cases hrun
      | succ fuel =>
          rw [fixParentPagesFrom] at hrun
          split at hrun
          · obtain ⟨-, rfl⟩ := pure_eq_ok.mp hrun
            exact .inr ⟨s, h⟩
          · obtain ⟨leafNumber, u, hnumber, hrun⟩ := bind_eq_ok.mp hrun
            obtain ⟨hlast, rfl⟩ := lastPage_eq_ok.mp hnumber
            obtain rfl : n = leafNumber := Option.some.inj (hpath.last.symm.trans hlast)
            obtain ⟨leaf, u, hfetch, hrun⟩ := bind_eq_ok.mp hrun
            obtain ⟨hleaf, rfl⟩ := fetchPage_eq_ok.mp hfetch
            obtain rfl : page = leaf := Option.some.inj (hpath.stored.symm.trans hleaf)
            obtain ⟨leafHead, u, hobject, -⟩ := bind_eq_ok.mp hrun
            obtain ⟨hhead, -⟩ := headObject_eq_ok.mp hobject
            rw [hobjects] at hhead
            cases hhead

theorem update_spec {r : Nat} (h : SearchTree t) (hkey : KeyOk size obj.key)
    (hroom : ∀ n u, replaceVersion obj t = .ok n u → AddsWithRoom obj u)
    (hrun : update obj t = .ok r t') : SearchTree t' := by
  obtain ⟨n, u, hreplace, hnext⟩ := bind_eq_ok.mp hrun
  obtain ⟨_, v, hfirst, hnext⟩ := bind_eq_ok.mp hnext
  obtain ⟨m, w, hadd, hlast⟩ := bind_eq_ok.mp hfirst
  obtain ⟨-, rfl⟩ := pure_eq_ok.mp hlast
  have hadded := add_spec (replaceVersion_spec h hreplace) hkey (hroom n u hreplace) hadd
  obtain ⟨⟨path, depthIterator⟩, x, hsearch, hnext⟩ := bind_eq_ok.mp hnext
  obtain ⟨leafNumber, hleads⟩ := searchPage_leads hsearch
  obtain ⟨rfl, leaf, page, hpath⟩ := searchPage_ok hsearch
  obtain rfl : leaf = leafNumber := Option.some.inj (hpath.last.symm.trans hleads.chain.getLast?)
  obtain ⟨_, y, hfix, hlast⟩ := bind_eq_ok.mp hnext
  obtain ⟨-, rfl⟩ := pure_eq_ok.mp hlast
  obtain hnil | ⟨s, hgrowing⟩ := hadded
  · have hpage := hpath.stored
    rw [hnil] at hpage
    cases hpage
  · exact fixParentPages_settled hgrowing hpath hleads.chain hfix

end

end Vsql.Btree
