import Vsql.Btree.Runs

/-!
# What changes do to the objects

The pages of a tree are not seen from outside: a change of the tree is a change of the
objects that it stores.  All the versions of a key are on the leaf where a search for it
ends, so that what is done to that page is done to the whole tree.
-/

namespace Vsql.Btree

open Foundation StateError

variable {size : PageSize} {t t' : Btree size} {s : Shape Bytes} {key : Bytes}

/-! ## The leaf of a key -/

theorem Growing.other_ne {path : List Nat} {depthIterator : List Nat} {n : Nat} {page : Page size}
    (h : Growing t none ∅ s) (hsearch : searchPage key t = .ok (path, depthIterator) t)
    (hpath : LeafPath t path n page) {o : PageObject} (ho : o ∈ otherObjects t n) :
    o.key ≠ key := by
  obtain ⟨m, leaf, hne, hleaf, hkind, ho⟩ := mem_otherObjects ho
  exact fun hkey => hne (h.leaf_unique hsearch hpath.last m leaf hleaf hkind o ho hkey)

/-- What is done to the objects of one key in their leaf is done to all of the objects. -/
theorem Growing.leafObjects_set {path depthIterator : List Nat} {n : Nat} {page page' : Page size}
    {f : List PageObject → List PageObject} (h : Growing t none ∅ s)
    (hsearch : searchPage key t = .ok (path, depthIterator) t) (hpath : LeafPath t path n page)
    (hkind : page'.kind = page.kind) (hobjects : page'.objects = f page.objects)
    (happend : ∀ a b, f (a ++ b) = f a ++ f b) (hperm : ∀ {a b}, a.Perm b → (f a).Perm (f b))
    (hf : ∀ objects, (∀ o ∈ objects, o.key ≠ key) → f objects = objects)
    (hpages : t'.pages = t.pages.set n page') : (leafObjects t').Perm (f (leafObjects t)) := by
  have hn := (List.getElem?_eq_some_iff.mp hpath.stored).1
  refine (Btree.leafObjects_set hn (hkind.trans hpath.kind) hpages).trans ?_
  refine List.Perm.trans ?_ (hperm (leafObjects_perm hpath.stored hpath.kind).symm)
  rw [happend, hobjects, hf _ fun o ho => h.other_ne hsearch hpath ho]

def without (key : Bytes) (tid : Nat) (objects : List PageObject) : List PageObject :=
  objects.filter fun o => ¬(o.key = key ∧ o.tid = tid)

theorem without_of_ne {tid : Nat} {objects : List PageObject} (h : ∀ o ∈ objects, o.key ≠ key) :
    without key tid objects = objects :=
  List.filter_eq_self.mpr fun o ho => by simp [h o ho]

theorem map_setXid_of_ne {tid xid : Nat} {objects : List PageObject}
    (h : ∀ o ∈ objects, o.key ≠ key) : objects.map (Page.setXid key tid xid) = objects := by
  conv_rhs => rw [← List.map_id objects]
  refine List.map_congr_left fun o ho => ?_
  exact if_neg fun hboth => h o ho hboth.1

theorem filter_versionsOf {p : PageObject → Bool} (objects : List PageObject)
    (hp : ∀ o, p o → o.key = key) : (versionsOf key objects).filter p = objects.filter p := by
  rw [versionsOf, List.filter_filter]
  refine List.filter_congr fun o _ => ?_
  cases hpo : p o with
  | false => rfl
  | true => simp [hp o hpo]

/-- The leaf of a key has all of the objects that meet a condition on the key. -/
theorem Growing.filter_leaf {path depthIterator : List Nat} {n : Nat} {page : Page size}
    {p : PageObject → Bool} (h : Growing t none ∅ s)
    (hsearch : searchPage key t = .ok (path, depthIterator) t) (hpath : LeafPath t path n page)
    (hp : ∀ o, p o → o.key = key) : (leafObjects t).filter p = page.objects.filter p := by
  rw [← filter_versionsOf (leafObjects t) hp, ← filter_versionsOf page.objects hp,
    versionsOf_leafObjects hpath.stored hpath.kind (h.leaf_unique hsearch hpath.last)]

theorem Growing.any_leaf {path depthIterator : List Nat} {n : Nat} {page : Page size}
    {p : PageObject → Bool} (h : Growing t none ∅ s)
    (hsearch : searchPage key t = .ok (path, depthIterator) t) (hpath : LeafPath t path n page)
    (hp : ∀ o, p o → o.key = key) : page.objects.any p = (leafObjects t).any p := by
  rw [Bool.eq_iff_iff, List.any_eq_true, List.any_eq_true]
  have hmem : ∀ o, o ∈ page.objects ∧ p o ↔ o ∈ leafObjects t ∧ p o := by
    intro o
    rw [← List.mem_filter, ← List.mem_filter, h.filter_leaf hsearch hpath hp]
  simp only [← hmem]

/-! ## Expiring -/

/-- Another transaction has expired the object. -/
def Conflicts (key : Bytes) (tid xid : Nat) (objects : List PageObject) : Prop :=
  ∃ o ∈ objects, o.key = key ∧ o.tid = tid ∧ xid ≠ 0 ∧ o.xid ≠ 0 ∧ o.xid ≠ xid

/-- An object is expired wherever it is, unless another transaction has done so. -/
theorem SearchTree.expire_effect (h : SearchTree t) (hpages : t.pages ≠ []) (key : Bytes)
    (tid xid : Nat) :
    (Conflicts key tid xid (leafObjects t) → expire key tid xid t = .error Page.concurrentWrite t) ∧
      (¬Conflicts key tid xid (leafObjects t) → ∃ r t', expire key tid xid t = .ok r t' ∧
        (r.isSome ↔ ∃ o ∈ leafObjects t, o.key = key ∧ o.tid = tid) ∧
        (leafObjects t').Perm ((leafObjects t).map (Page.setXid key tid xid))) := by
  obtain ⟨s, h⟩ := h.resolve_left hpages
  obtain ⟨⟨path, depthIterator⟩, hsearch⟩ := h.searchPage_ok key
  obtain ⟨-, n, page, hpath⟩ := searchPage_ok hsearch
  have hconflict : (page.objects.any fun o => o.key = key ∧ o.tid = tid ∧ xid ≠ 0 ∧ o.xid ≠ 0 ∧
      o.xid ≠ xid) ↔ Conflicts key tid xid (leafObjects t) := by
    rw [h.any_leaf hsearch hpath fun o ho => (of_decide_eq_true ho).1, List.any_eq_true]
    simp only [decide_eq_true_eq, Conflicts]
  have hexists : (page.objects.any fun o => o.key = key ∧ o.tid = tid) ↔
      ∃ o ∈ leafObjects t, o.key = key ∧ o.tid = tid := by
    rw [h.any_leaf hsearch hpath fun o ho => (of_decide_eq_true ho).1, List.any_eq_true]
    simp only [decide_eq_true_eq]
  have hfetch : fetchPage n t = .ok page t := fetchPage_eq_ok.mpr ⟨hpath.stored, rfl⟩
  have hlast : lastPage path t = .ok n t := lastPage_eq_ok.mpr ⟨hpath.last, rfl⟩
  refine ⟨fun hyes => ?_, fun hno => ?_⟩
  · have hpage : page.expire key tid xid = .error Page.concurrentWrite :=
      if_pos (hconflict.mpr hyes)
    refine bind_eq_error.mpr (.inr ⟨_, t, hsearch, bind_eq_error.mpr (.inr ⟨n, t, hlast,
      bind_eq_error.mpr (.inr ⟨page, t, hfetch, bind_eq_error.mpr (.inl ?_)⟩)⟩)⟩)
    exact ofExcept_eq_error.mpr ⟨hpage, rfl⟩
  · obtain ⟨page', hpage⟩ : ∃ page', page.expire key tid xid =
        .ok (page', page.objects.any fun o => o.key = key ∧ o.tid = tid) :=
      ⟨_, if_neg fun hany => hno (hconflict.mp hany)⟩
    obtain ⟨hkind, hobjects⟩ := expire_ok hpage
    have hmap : ∀ t' : Btree size, t'.pages = t.pages.set n page' →
        (leafObjects t').Perm ((leafObjects t).map (Page.setXid key tid xid)) := by
      intro t' hpages
      exact h.leafObjects_set hsearch hpath hkind hobjects (fun _ _ => List.map_append)
        (fun hperm => hperm.map _) (fun _ ho => map_setXid_of_ne ho) hpages
    have hrun : ∀ r t', (if (page.objects.any fun o => o.key = key ∧ o.tid = tid) = true then do
        Btree.storePage n page'
        pure (some n)
      else pure none : BtreeM size (Option Nat)) t = .ok r t' →
        expire key tid xid t = .ok r t' := by
      intro r t' hrest
      exact bind_eq_ok.mpr ⟨_, t, hsearch, bind_eq_ok.mpr ⟨n, t, hlast, bind_eq_ok.mpr ⟨page, t,
        hfetch, bind_eq_ok.mpr ⟨_, t, ofExcept_eq_ok.mpr ⟨hpage, rfl⟩, hrest⟩⟩⟩⟩
    by_cases hany : (page.objects.any fun o => o.key = key ∧ o.tid = tid) = true
    · refine ⟨some n, _, hrun _ _ (by rw [if_pos hany]; rfl), ?_, hmap _ rfl⟩
      rw [← hexists, hany]
      rfl
    · refine ⟨none, t, hrun _ _ (by rw [if_neg hany]; rfl), ?_, ?_⟩
      · rw [← hexists]
        simpa using hany
      · have hsame : (leafObjects t).map (Page.setXid key tid xid) = leafObjects t := by
          conv_rhs => rw [← List.map_id (leafObjects t)]
          refine List.map_congr_left fun o ho => if_neg fun hboth => ?_
          exact hany (hexists.mpr ⟨o, ho, hboth⟩)
        rw [hsame]

/-! ## Reading and removing -/

theorem Growing.delete_effect {path depthIterator : List Nat} {n tid : Nat} {page : Page size}
    (h : Growing t none ∅ s) (hsearch : searchPage key t = .ok (path, depthIterator) t)
    (hpath : LeafPath t path n page) (hpages : t'.pages = t.pages.set n (page.delete key tid).1) :
    (leafObjects t').Perm (without key tid (leafObjects t)) :=
  @Growing.leafObjects_set _ t t' s key path depthIterator n page (page.delete key tid).1
    (without key tid) h hsearch hpath rfl rfl (fun _ _ => List.filter_append ..)
    (fun hperm => hperm.filter _) (fun _ ho => without_of_ne ho) hpages

theorem Growing.without_eq {path depthIterator : List Nat} {n tid : Nat} {page : Page size}
    (h : Growing t none ∅ s) (hsearch : searchPage key t = .ok (path, depthIterator) t)
    (hpath : LeafPath t path n page) (hnone : ¬(page.delete key tid).2) :
    without key tid (leafObjects t) = leafObjects t := by
  have hany : (page.delete key tid).2 = (leafObjects t).any fun o => o.key = key ∧ o.tid = tid :=
    h.any_leaf hsearch hpath fun o ho => (of_decide_eq_true ho).1
  rw [hany] at hnone
  refine List.filter_eq_self.mpr fun o ho => ?_
  simp only [List.any_eq_true, decide_eq_true_eq] at hnone ⊢
  exact fun hboth => hnone ⟨o, ho, hboth⟩

/-- The objects without those of a transaction that have one of the keys. -/
def withoutKeys (keys : List Bytes) (tid : Nat) (objects : List PageObject) : List PageObject :=
  objects.filter fun o => ¬(keys.contains o.key ∧ o.tid = tid)

theorem withoutKeys_cons {keys : List Bytes} {tid : Nat} (objects : List PageObject) :
    withoutKeys keys tid (without key tid objects) = withoutKeys (key :: keys) tid objects := by
  rw [withoutKeys, without, List.filter_filter]
  refine List.filter_congr fun o _ => ?_
  rw [Bool.eq_iff_iff]
  simp
  tauto

theorem SearchTree.removeBlobKeys_effect {tid : Nat} {keys : List Bytes} (h : SearchTree t)
    (hpages : t.pages ≠ []) (hrun : removeBlobKeys tid keys t = .ok () t') :
    (leafObjects t').Perm (withoutKeys keys tid (leafObjects t)) := by
  induction keys generalizing t with
  | nil =>
      obtain ⟨-, rfl⟩ := pure_eq_ok.mp hrun
      have hsame : withoutKeys [] tid (leafObjects t) = leafObjects t :=
        List.filter_eq_self.mpr fun o _ => by simp
      rw [hsame]
  | cons key keys ih =>
      obtain ⟨s, hgrowing⟩ := h.resolve_left hpages
      rw [removeBlobKeys] at hrun
      obtain ⟨path, depthIterator, n, page, hsearch, hpath, hnext⟩ :=
        searchLeaf_ok hrun fun _ _ => rfl
      rw [← withoutKeys_cons]
      split at hnext
      · obtain ⟨_, u, hstore, hmore⟩ := bind_eq_ok.mp hnext
        have hu := h.storePage hpath.stored hpath.kind (.delete page key tid) hstore
        have hstored := storePage_eq_ok.mp hstore
        have hset : u.pages = t.pages.set n (page.delete key tid).1 := by rw [← hstored]
        refine (ih hu (fun hnil => hpages ?_) hmore).trans ?_
        · rw [hset] at hnil
          simpa using hnil
        · exact (hgrowing.delete_effect hsearch hpath hset).filter _
      · next hnone =>
          rw [hgrowing.without_eq hsearch hpath hnone]
          exact ih h hpages hnext

/-! ## Updates -/

/-- The version that an update replaces is removed, and the version of another transaction
expires. -/
def replaced (obj : PageObject) (objects : List PageObject) : List PageObject :=
  match (versionsOf obj.key objects).map (·.tid) with
  | [version] =>
      if version = obj.tid then without obj.key obj.tid objects
      else objects.map (Page.setXid obj.key version obj.tid)
  | [_, _] => without obj.key obj.tid objects
  | _ => objects

theorem objects_update {obj : PageObject} {page page' : Page size}
    (h : page.update obj obj.tid = .ok page') : page'.objects = replaced obj page.objects := by
  have hversions : (versionsOf obj.key page.objects).map (·.tid) = page.versions obj.key := rfl
  unfold Page.update at h
  unfold replaced
  rw [hversions]
  generalize page.versions obj.key = versions at h ⊢
  cases versions with
  | nil =>
      cases h
      rfl
  | cons version others =>
      cases others with
      | nil =>
          simp only at h ⊢
          by_cases htid : version = obj.tid
          · rw [if_pos htid] at h ⊢
            cases h
            rfl
          · rw [if_neg htid] at h ⊢
            cases hexpire : page.expire obj.key version obj.tid with
            | error e =>
                rw [hexpire] at h
                cases h
            | ok result =>
                rw [hexpire] at h
                cases h
                exact (expire_ok hexpire).2
      | cons second more =>
          cases more with
          | nil =>
              cases h
              rfl
          | cons third rest =>
              cases h
              rfl

/-- The parts of the version that is replaced are removed with it. -/
def withoutParts (own : Option PageObject) (objects : List PageObject) : List PageObject :=
  match own with
  | some own => if own.isBlobRef then withoutKeys own.blobKeys own.tid objects else objects
  | none => objects

theorem SearchTree.replaceVersion_effect {obj : PageObject} {r : Nat} (h : SearchTree t)
    (hpages : t.pages ≠ []) (hrun : replaceVersion obj t = .ok r t') :
    (leafObjects t').Perm (withoutParts
      ((leafObjects t).find? fun o => o.key = obj.key ∧ o.tid = obj.tid)
      (replaced obj (leafObjects t))) := by
  obtain ⟨s, hgrowing⟩ := h.resolve_left hpages
  obtain ⟨path, depthIterator, n, page, hsearch, hpath, hnext⟩ :=
    searchLeaf_ok hrun fun _ _ => rfl
  obtain ⟨page', u, hfit, hnext⟩ := bind_eq_ok.mp hnext
  obtain ⟨hupdate, rfl⟩ := ofExcept_eq_ok.mp hfit
  obtain ⟨_, v, hstore, hnext⟩ := bind_eq_ok.mp hnext
  have hv := h.storePage hpath.stored hpath.kind (.update hupdate) hstore
  have hstored := storePage_eq_ok.mp hstore
  have hset : v.pages = t.pages.set n page' := by rw [← hstored]
  have hvpages : v.pages ≠ [] := by
    rw [hset]
    simpa using hpages
  have hfind : ((leafObjects t).find? fun o => o.key = obj.key ∧ o.tid = obj.tid) =
      page.get obj.key obj.tid := by
    rw [Page.get, ← List.head?_filter, ← List.head?_filter,
      hgrowing.filter_leaf hsearch hpath fun o ho => (of_decide_eq_true ho).1]
  have hreplaced : (leafObjects v).Perm (replaced obj (leafObjects t)) := by
    have hobjects := objects_update hupdate
    have hkind := (Trims.update hupdate).kind
    have hversions : versionsOf obj.key (leafObjects t) = versionsOf obj.key page.objects :=
      versionsOf_leafObjects hpath.stored hpath.kind (hgrowing.leaf_unique hsearch hpath.last)
    unfold replaced at hobjects ⊢
    rw [hversions]
    have hwithout : page'.objects = without obj.key obj.tid page.objects →
        (leafObjects v).Perm (without obj.key obj.tid (leafObjects t)) := fun hobjects =>
      hgrowing.leafObjects_set hsearch hpath hkind hobjects (fun _ _ => List.filter_append ..)
        (fun hperm => hperm.filter _) (fun _ ho => without_of_ne ho) hset
    split at hobjects
    · next version hone =>
        split at hobjects
        · next htid =>
            rw [if_pos htid]
            exact hwithout hobjects
        · next htid =>
            rw [if_neg htid]
            exact hgrowing.leafObjects_set hsearch hpath hkind hobjects (fun _ _ => List.map_append)
              (fun hperm => hperm.map _) (fun _ ho => map_setXid_of_ne ho) hset
    · exact hwithout hobjects
    · exact @Growing.leafObjects_set _ t v s obj.key path depthIterator n page page' id hgrowing
        hsearch hpath hkind hobjects (fun _ _ => rfl) id (fun _ _ => rfl) hset
  rw [hfind]
  cases hown : page.get obj.key obj.tid with
  | none =>
      simp only [hown] at hnext
      obtain ⟨-, rfl⟩ := pure_eq_ok.mp hnext
      exact hreplaced
  | some own =>
      simp only [hown] at hnext
      rw [withoutParts]
      split at hnext
      · next hblob =>
          obtain ⟨_, w, hremove, hlast⟩ := bind_eq_ok.mp hnext
          obtain ⟨-, rfl⟩ := pure_eq_ok.mp hlast
          rw [if_pos hblob]
          exact (hv.removeBlobKeys_effect hvpages hremove).trans (hreplaced.filter _)
      · next hblob =>
          obtain ⟨-, rfl⟩ := pure_eq_ok.mp hnext
          rw [if_neg hblob]
          exact hreplaced

theorem SearchTree.replaceValue_effect {obj : PageObject} {value : Bytes} (h : SearchTree t)
    (hpages : t.pages ≠ []) (hrun : replaceValue obj value t = .ok () t') :
    (leafObjects t').Perm (⟨obj.key, value, false, obj.tid, obj.xid⟩ ::
      without obj.key obj.tid (leafObjects t)) := by
  obtain ⟨s, hgrowing⟩ := h.resolve_left hpages
  obtain ⟨path, depthIterator, n, page, hsearch, hpath, hnext⟩ :=
    searchLeaf_ok hrun fun _ _ => rfl
  split at hnext
  · obtain ⟨page', u, hfit, hstore⟩ := bind_eq_ok.mp hnext
    obtain ⟨hadd, rfl⟩ := ofExcept_eq_ok.mp hfit
    have hstored := storePage_eq_ok.mp hstore
    obtain ⟨hkind, hobjects⟩ := kind_add hadd
    have hn := (List.getElem?_eq_some_iff.mp hpath.stored).1
    have hset := Btree.leafObjects_set (t := t) hn (hkind.trans hpath.kind)
      (show t'.pages = t.pages.set n page' by rw [← hstored])
    refine hset.trans ?_
    rw [hobjects]
    refine ((sortObjects_perm _).append_right _).trans ?_
    rw [List.append_assoc, List.singleton_append]
    refine List.perm_middle.trans (List.Perm.cons _ ?_)
    -- The page without the object, as if it had been stored.
    let deleted : Btree size := { t with pages := t.pages.set n (page.delete obj.key obj.tid).1 }
    have hdelete := @Btree.leafObjects_set _ t deleted n (page.delete obj.key obj.tid).1 hn
      hpath.kind rfl
    exact hdelete.symm.trans (hgrowing.delete_effect hsearch hpath rfl)
  · cases hnext

/-! ## What a change does -/

namespace Change

def IsStatement : Change → Prop
  | add _ | update _ | expire _ _ _ | replaceValue _ _ => True
  | removeExpiredObjects _ _ | undoPages _ _ | recoverPages _ _ => False

/-- The objects after a change. -/
def effect (size : PageSize) (objects : List PageObject) : Change → Option (List PageObject)
  | add obj => do
      let parts ← (pieces size obj).toOption
      some (parts ++ objects)
  | update obj => do
      let parts ← (pieces size obj).toOption
      let own := objects.find? fun o => o.key = obj.key ∧ o.tid = obj.tid
      some (parts ++ withoutParts own (replaced obj objects))
  | expire key tid xid => some (objects.map (Page.setXid key tid xid))
  | replaceValue obj value =>
      some (⟨obj.key, value, false, obj.tid, obj.xid⟩ :: without obj.key obj.tid objects)
  | removeExpiredObjects _ _ | undoPages _ _ | recoverPages _ _ => none

end Change

/-- A tree is changed as the objects that it stores would be. -/
theorem Built.change_effect {change : Change} (h : Built t) (hstatement : change.IsStatement)
    (hrun : change.run t = .ok () t') :
    ∃ objects, change.effect size (leafObjects t) = some objects ∧
      (leafObjects t').Perm objects := by
  have hpages : ∀ {α : Type} {key : Bytes} {f : List Nat × List Nat → BtreeM size α} {a : α} {u},
      (searchPage key >>= f) t = .ok a u → t.pages ≠ [] := by
    intro α key f a u hsearch hnil
    obtain ⟨result, v, hfound, -⟩ := bind_eq_ok.mp hsearch
    obtain ⟨-, n, page, hpath⟩ := searchPage_ok hfound
    have hpage := hpath.stored
    rw [hnil] at hpage
    cases hpage
  cases change with
  | add obj =>
      obtain ⟨r, hrun⟩ := discard_eq_ok.mp hrun
      obtain ⟨parts, hpieces, hperm⟩ := add_leafObjects hrun
      exact ⟨parts ++ leafObjects t, by rw [Change.effect, hpieces]; rfl, hperm⟩
  | update obj =>
      obtain ⟨r, hrun⟩ := discard_eq_ok.mp hrun
      obtain ⟨u, v, n, m, hreplace, hadd, hinner⟩ := update_ok hrun
      obtain ⟨parts, hpieces, hperm⟩ := add_leafObjects hadd
      refine ⟨_, by rw [Change.effect, hpieces]; rfl, ?_⟩
      rw [hinner.leafObjects]
      have hreplaced := h.searchTree.replaceVersion_effect (hpages hreplace) hreplace
      exact hperm.trans (hreplaced.append_left _)
  | expire key tid xid =>
      obtain ⟨r, hrun⟩ := discard_eq_ok.mp hrun
      refine ⟨_, rfl, ?_⟩
      obtain ⟨hyes, hno⟩ := h.searchTree.expire_effect (hpages hrun) key tid xid
      by_cases hconflict : Conflicts key tid xid (leafObjects t)
      · rw [hyes hconflict] at hrun
        cases hrun
      · obtain ⟨r', u, hok, -, hperm⟩ := hno hconflict
        rw [hok] at hrun
        cases hrun
        exact hperm
  | replaceValue obj value =>
      exact ⟨_, rfl, h.searchTree.replaceValue_effect (hpages hrun) hrun⟩
  | removeExpiredObjects _ _ => exact hstatement.elim
  | undoPages _ _ => exact hstatement.elim
  | recoverPages _ _ => exact hstatement.elim

def splittingUpdate : Change := .update (keyObject 2 7 26)

/-- The version of another transaction is expired, and the new one splits its leaf. -/
theorem effect_splittingUpdate :
    smallTree.pages.length < (final (splittingUpdate.run smallTree)).pages.length ∧
      ∃ objects, splittingUpdate.effect smallPage (leafObjects smallTree) = some objects ∧
        (leafObjects (final (splittingUpdate.run smallTree))).Perm objects := by
  obtain ⟨⟨⟩, hrun⟩ : ∃ u, splittingUpdate.run smallTree =
    .ok u (final (splittingUpdate.run smallTree)) := exists_eq_ok (by decide +kernel)
  exact ⟨by decide +kernel, built_smallTree.change_effect trivial hrun⟩

end Vsql.Btree
