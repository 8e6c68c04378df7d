import Vsql.Btree.Leaves
import Vsql.Statement

/-!
# Removing what a transaction did

COMMIT, ROLLBACK and recovery remove objects from their pages, or make them
visible again, but never move them.  The pages that were visited have none of
the objects that were to be removed.
-/

namespace Vsql

open Foundation StateError

variable {size : PageSize}

/-! ## One page -/

/-- The object is still what it was, except that it may be visible again. -/
def PageObject.Restores (o o' : PageObject) : Prop :=
  o'.key = o.key ∧ o'.tid = o.tid ∧ (o'.xid = o.xid ∨ o'.xid = 0)

theorem PageObject.Restores.refl (o : PageObject) : o.Restores o :=
  ⟨rfl, rfl, .inl rfl⟩

theorem PageObject.Restores.trans {o o' o'' : PageObject} (first : o.Restores o')
    (second : o'.Restores o'') : o.Restores o'' := by
  obtain ⟨hkey, htid, hxid⟩ := first
  obtain ⟨hkey', htid', hxid'⟩ := second
  refine ⟨hkey'.trans hkey, htid'.trans htid, ?_⟩
  rcases hxid' with h | h
  · rw [h]
    exact hxid
  · exact .inr h

structure Page.Shrinks (page page' : Page size) : Prop where
  kind : page'.kind = page.kind
  mem : ∀ o' ∈ page'.objects, ∃ o ∈ page.objects, o.Restores o'

namespace Page.Shrinks

theorem refl (page : Page size) : page.Shrinks page :=
  ⟨rfl, fun o ho => ⟨o, ho, .refl o⟩⟩

theorem trans {page page' page'' : Page size} (first : page.Shrinks page')
    (second : page'.Shrinks page'') : page.Shrinks page'' := by
  refine ⟨second.kind.trans first.kind, fun o'' ho'' => ?_⟩
  obtain ⟨o', ho', h⟩ := second.mem o'' ho''
  obtain ⟨o, ho, h'⟩ := first.mem o' ho'
  exact ⟨o, ho, h'.trans h⟩

theorem delete (page : Page size) (key : Bytes) (tid : Nat) :
    page.Shrinks (page.delete key tid).1 :=
  ⟨rfl, fun o ho => ⟨o, Btree.delete_objects_subset ho, .refl o⟩⟩

theorem expire {page page' : Page size} {key : Bytes} {tid : Nat} {modified : Bool}
    (h : page.expire key tid 0 = .ok (page', modified)) : page.Shrinks page' := by
  obtain ⟨hkind, hobjects⟩ := Btree.expire_ok h
  refine ⟨hkind, fun o' ho' => ?_⟩
  rw [hobjects] at ho'
  rcases Btree.mem_setXid ho' with ho | ⟨o, ho, rfl⟩
  · exact ⟨o', ho, .refl o'⟩
  · exact ⟨o, ho, rfl, rfl, .inr rfl⟩

end Page.Shrinks

namespace Storage

private theorem not_mem_delete {page : Page size} {key : Bytes} {tid : Nat}
    {o : PageObject} (ho : o ∈ (page.delete key tid).1.objects) :
    ¬(o.key = key ∧ o.tid = tid) := by
  simpa only [decide_eq_true_eq] using (List.mem_filter.mp ho).2

theorem removeExpired_objects (T : Nat) (page : Page size) :
    (removeExpired T page).objects = page.objects.filter fun o =>
      ¬∃ d ∈ page.objects, d.xid = T ∧ o.key = d.key ∧ o.tid = d.tid := by
  have hfold : ∀ (objects : List PageObject) (start : Page size),
      (objects.foldl (fun page o =>
        if o.xid = T then (page.delete o.key o.tid).1 else page) start).objects =
      start.objects.filter fun o =>
        ¬∃ d ∈ objects, d.xid = T ∧ o.key = d.key ∧ o.tid = d.tid := by
    intro objects
    induction objects with
    | nil => simp
    | cons d objects ih =>
        intro start
        rw [List.foldl_cons, ih]
        split
        next hd =>
            simp only [Page.delete, List.filter_filter]
            refine List.filter_congr fun o ho => ?_
            simp only [List.mem_cons, exists_eq_or_imp, hd, true_and, not_or,
              Bool.decide_and, decide_not]
            rw [Bool.and_comm]
        next hd =>
            refine List.filter_congr fun o ho => ?_
            simp only [List.mem_cons, exists_eq_or_imp, hd, false_and, false_or]
  exact hfold page.objects page

theorem removeExpired_kind (T : Nat) (page : Page size) :
    (removeExpired T page).kind = page.kind := by
  have hfold : ∀ (objects : List PageObject) (start : Page size),
      (objects.foldl (fun page o =>
        if o.xid = T then (page.delete o.key o.tid).1 else page) start).kind =
      start.kind := by
    intro objects
    induction objects with
    | nil => exact fun start => rfl
    | cons d objects ih =>
        intro start
        rw [List.foldl_cons, ih]
        split <;> rfl
  exact hfold page.objects page

theorem removeExpired_shrinks (T : Nat) (page : Page size) :
    page.Shrinks (removeExpired T page) := by
  refine ⟨removeExpired_kind T page, fun o ho => ?_⟩
  rw [removeExpired_objects] at ho
  exact ⟨o, List.mem_of_mem_filter ho, .refl o⟩

theorem removeExpired_xid {T : Nat} {page : Page size} {o : PageObject}
    (h : o ∈ (removeExpired T page).objects) : o.xid ≠ T := by
  rw [removeExpired_objects, List.mem_filter] at h
  intro hxid
  simp only [decide_eq_true_eq] at h
  exact h.2 ⟨o, h.1, hxid, rfl, rfl⟩

theorem undo_shrinks {gone : Nat → Bool} {page page' : Page size}
    {objects : List PageObject} (h : undo gone page objects = .ok page') :
    page.Shrinks page' := by
  induction objects generalizing page with
  | nil =>
      cases h
      exact .refl _
  | cons d objects ih =>
      rw [undo] at h
      split at h
      · exact (Page.Shrinks.delete page d.key d.tid).trans (ih h)
      · split at h
        · cases hexpire : page.expire d.key d.tid 0 with
          | error e =>
              rw [hexpire] at h
              cases h
          | ok result =>
              rw [hexpire] at h
              exact (Page.Shrinks.expire hexpire).trans (ih h)
        · exact ih h

/-- Every object that was visited has been dealt with. -/
private theorem undo_visited {gone : Nat → Bool} {page page' : Page size}
    {objects : List PageObject} (h : undo gone page objects = .ok page')
    {d o : PageObject} (hd : d ∈ objects) (ho : o ∈ page'.objects)
    (hkey : o.key = d.key) (htid : o.tid = d.tid) :
    gone d.tid = false ∧ (gone d.xid = true → o.xid = 0) := by
  induction objects generalizing page with
  | nil => cases hd
  | cons first objects ih =>
      rw [undo] at h
      rcases List.mem_cons.mp hd with rfl | hd
      · split at h
        · obtain ⟨o', ho', hkey', htid', -⟩ := (undo_shrinks h).mem o ho
          exact absurd ⟨hkey'.symm.trans hkey, htid'.symm.trans htid⟩ (not_mem_delete ho')
        next hgone =>
          refine ⟨by simpa using hgone, fun hxid => ?_⟩
          rw [if_pos hxid] at h
          cases hexpire : page.expire d.key d.tid 0 with
          | error e =>
              rw [hexpire] at h
              cases h
          | ok result =>
              rw [hexpire] at h
              obtain ⟨o', ho', hkey', htid', hxid'⟩ := (undo_shrinks h).mem o ho
              rw [(Btree.expire_ok hexpire).2] at ho'
              obtain ⟨o'', -, rfl⟩ := List.mem_map.mp ho'
              have hzero : (Page.setXid d.key d.tid 0 o'').xid = 0 := by
                have hsame : o''.key = d.key ∧ o''.tid = d.tid := by
                  unfold Page.setXid at hkey' htid'
                  split at hkey'
                  next hsame => exact hsame
                  next hne =>
                    rw [if_neg hne] at htid'
                    exact ⟨hkey'.symm.trans hkey, htid'.symm.trans htid⟩
                simp [Page.setXid, hsame]
              rcases hxid' with heq | heq
              · exact heq.trans hzero
              · exact heq
      · split at h
        · exact ih h hd
        · split at h
          · cases hexpire : page.expire first.key first.tid 0 with
            | error e =>
                rw [hexpire] at h
                cases h
            | ok result =>
                rw [hexpire] at h
                exact ih h hd
          · exact ih h hd

theorem undo_gone {gone : Nat → Bool} {page page' : Page size}
    (h : undo gone page page.objects = .ok page') {o : PageObject}
    (ho : o ∈ page'.objects) :
    gone o.tid = false ∧ (gone o.xid = true → o.xid = 0) := by
  obtain ⟨o', ho', hkey, htid, hxid⟩ := (undo_shrinks h).mem o ho
  obtain ⟨hgone, hzero⟩ := undo_visited h ho' ho hkey htid
  refine ⟨by rwa [htid], fun hx => ?_⟩
  rcases hxid with heq | heq
  · exact hzero (by rwa [← heq])
  · exact heq

end Storage

/-! ## The tree -/

/-- Every page still has some of its objects, and no new ones. -/
structure Btree.Shrinks (t t' : Btree size) : Prop where
  length : t'.pages.length = t.pages.length
  root : t'.rootPage = t.rootPage
  page : ∀ (n : Nat) (page' : Page size), t'.pages[n]? = some page' →
    ∃ page : Page size, t.pages[n]? = some page ∧ page.Shrinks page'

namespace Btree.Shrinks

theorem refl (t : Btree size) : t.Shrinks t :=
  ⟨rfl, rfl, fun _ page h => ⟨page, h, .refl page⟩⟩

theorem trans {t u v : Btree size} (first : t.Shrinks u) (second : u.Shrinks v) :
    t.Shrinks v := by
  refine ⟨second.length.trans first.length, second.root.trans first.root,
    fun n page'' h => ?_⟩
  obtain ⟨page', h', hshrinks⟩ := second.page n page'' h
  obtain ⟨page, h'', hshrinks'⟩ := first.page n page' h'
  exact ⟨page, h'', hshrinks'.trans hshrinks⟩

theorem set {t : Btree size} {n : Nat} {page page' : Page size}
    (hpage : t.pages[n]? = some page) (h : page.Shrinks page') (written : List Nat) :
    t.Shrinks ⟨t.pages.set n page', t.rootPage, written⟩ := by
  refine ⟨by simp, rfl, fun m p hp => ?_⟩
  by_cases hm : n = m
  · subst hm
    rw [List.getElem?_set_self (List.getElem?_eq_some_iff.mp hpage).1] at hp
    cases hp
    exact ⟨page, hpage, h⟩
  · exact ⟨p, by rwa [List.getElem?_set_ne hm] at hp, .refl p⟩

/-- A property that expiry has nothing to do with does not appear. -/
theorem confines {t t' : Btree size} (h : t.Shrinks t') {R : Nat → Nat → Prop}
    (hzero : ∀ tid xid, R tid 0 → R tid xid) :
    Confines (fun o => R o.tid o.xid) t t' := by
  rintro n ⟨contents, hleaf, o', ho', hR⟩
  obtain ⟨page', hpage', hkind, rfl⟩ := leafAt_eq_some.mp hleaf
  obtain ⟨page, hpage, hshrinks⟩ := h.page n page' hpage'
  obtain ⟨o, ho, -, htid, hxid⟩ := hshrinks.mem o' ho'
  refine ⟨page.objects, leafAt_eq_some.mpr
    ⟨page, hpage, hshrinks.kind.symm.trans hkind, rfl⟩, o, ho, ?_⟩
  rw [htid] at hR
  rcases hxid with heq | heq
  · rwa [heq] at hR
  · rw [heq] at hR
    exact hzero o.tid o.xid hR

end Btree.Shrinks

/-- The object was created or expired by a transaction. -/
def Owns (T tid xid : Nat) : Prop := tid = T ∨ xid = T

abbrev Btree.OwnedAt (T : Nat) (t : Btree size) (n : Nat) : Prop :=
  HoldsAt (fun o => Owns T o.tid o.xid) t n

abbrev Btree.ExpiredAt (T : Nat) (t : Btree size) (n : Nat) : Prop :=
  HoldsAt (fun o => o.xid = T) t n

theorem Btree.Shrinks.ownedAt {t t' : Btree size} (h : t.Shrinks t') {T : Nat}
    (hT : T ≠ 0) {n : Nat} (hn : t'.OwnedAt T n) : t.OwnedAt T n := by
  refine h.confines (R := Owns T) (fun tid xid howns => ?_) n hn
  rcases howns with heq | heq
  · exact .inl heq
  · exact absurd heq.symm hT

theorem Btree.Shrinks.expiredAt {t t' : Btree size} (h : t.Shrinks t') {T : Nat}
    (hT : T ≠ 0) {n : Nat} (hn : t'.ExpiredAt T n) : t.ExpiredAt T n :=
  h.confines (R := fun _ xid => xid = T) (fun _ _ heq => absurd heq.symm hT) n hn

theorem Btree.removeBlobKeys_shrinks {tid : Nat} {keys : List Bytes}
    {t t' : Btree size} (h : removeBlobKeys tid keys t = .ok () t') : t.Shrinks t' := by
  induction keys generalizing t with
  | nil =>
      obtain ⟨-, rfl⟩ := pure_eq_ok.mp h
      exact .refl t
  | cons key keys ih =>
      rw [removeBlobKeys] at h
      obtain ⟨path, depthIterator, n, page, -, hpath, hnext⟩ :=
        searchLeaf_ok h fun _ _ => rfl
      split at hnext
      · obtain ⟨_, u, hstore, hmore⟩ := bind_eq_ok.mp hnext
        obtain rfl := storePage_eq_ok.mp hstore
        exact (Shrinks.set hpath.stored (.delete page key tid) _).trans (ih hmore)
      · exact ih hnext

namespace Storage

theorem removeBlobs_shrinks {refs : List PageObject} {t t' : Btree size}
    (h : removeBlobs refs t = .ok () t') : t.Shrinks t' := by
  induction refs generalizing t with
  | nil =>
      obtain ⟨-, rfl⟩ := pure_eq_ok.mp h
      exact .refl t
  | cons ref refs ih =>
      obtain ⟨_, u, hremove, hmore⟩ := bind_eq_ok.mp h
      exact (Btree.removeBlobKeys_shrinks hremove).trans (ih hmore)

@[simp] theorem pagerStorePage_eq_ok {n : Nat} {page : Page size} {t t' : Btree size}
    {u : Unit} : pagerStorePage n page t = .ok u t' ↔
      { t with pages := t.pages.set n page } = t' := by
  simp [pagerStorePage]

theorem removeExpiredFrom_shrinks {T : Nat} {numbers : List Nat} {t t' : Btree size}
    {refs : List PageObject} (h : removeExpiredFrom T numbers t = .ok refs t') :
    t.Shrinks t' := by
  induction numbers generalizing t refs with
  | nil =>
      obtain ⟨-, rfl⟩ := pure_eq_ok.mp h
      exact .refl t
  | cons n numbers ih =>
      obtain ⟨page, u, hrun, hrest⟩ := bind_eq_ok.mp h
      obtain ⟨hpage, rfl⟩ := Btree.fetchPage_eq_ok.mp hrun
      obtain ⟨_, v, hstore, hrest⟩ := bind_eq_ok.mp hrest
      obtain rfl := pagerStorePage_eq_ok.mp hstore
      obtain ⟨others, w, hothers, hlast⟩ := bind_eq_ok.mp hrest
      obtain ⟨-, rfl⟩ := pure_eq_ok.mp hlast
      exact (Btree.Shrinks.set hpage (removeExpired_shrinks T page) _).trans
        (ih hothers)

theorem removeExpiredFrom_expiredAt {T : Nat} (hT : T ≠ 0) {numbers : List Nat}
    {t t' : Btree size} {refs : List PageObject}
    (h : removeExpiredFrom T numbers t = .ok refs t') {n : Nat} (hn : n ∈ numbers) :
    ¬ t'.ExpiredAt T n := by
  induction numbers generalizing t refs with
  | nil => cases hn
  | cons m numbers ih =>
      obtain ⟨page, u, hrun, hrest⟩ := bind_eq_ok.mp h
      obtain ⟨hpage, rfl⟩ := Btree.fetchPage_eq_ok.mp hrun
      obtain ⟨_, v, hstore, hrest⟩ := bind_eq_ok.mp hrest
      obtain rfl := pagerStorePage_eq_ok.mp hstore
      obtain ⟨others, w, hothers, hlast⟩ := bind_eq_ok.mp hrest
      obtain ⟨-, rfl⟩ := pure_eq_ok.mp hlast
      rcases List.mem_cons.mp hn with rfl | hn
      · intro hexpired
        obtain ⟨contents, hleaf, o, ho, hxid⟩ :=
          (removeExpiredFrom_shrinks hothers).expiredAt hT hexpired
        obtain ⟨page', hpage', -, rfl⟩ := Btree.leafAt_eq_some.mp hleaf
        have hlt := (List.getElem?_eq_some_iff.mp hpage).1
        simp only [List.getElem?_set_self hlt, Option.some.injEq] at hpage'
        exact removeExpired_xid (hpage' ▸ ho) hxid
      · exact ih hothers hn

theorem removeExpiredObjects_shrinks {T : Nat} {numbers : List Nat} {t t' : Btree size}
    (h : removeExpiredObjects T numbers t = .ok () t') : t.Shrinks t' := by
  obtain ⟨refs, u, hremove, hblobs⟩ := bind_eq_ok.mp h
  exact (removeExpiredFrom_shrinks hremove).trans (removeBlobs_shrinks hblobs)

theorem removeExpiredObjects_expiredAt {T : Nat} (hT : T ≠ 0) {numbers : List Nat}
    {t t' : Btree size} (h : removeExpiredObjects T numbers t = .ok () t') {n : Nat}
    (hn : n ∈ numbers) : ¬ t'.ExpiredAt T n := by
  obtain ⟨refs, u, hremove, hblobs⟩ := bind_eq_ok.mp h
  exact fun hexpired => removeExpiredFrom_expiredAt hT hremove hn
    ((removeBlobs_shrinks hblobs).expiredAt hT hexpired)

theorem undoPages_shrinks {T : Nat} {numbers : List Nat} {t t' : Btree size}
    (h : undoPages T numbers t = .ok () t') : t.Shrinks t' := by
  induction numbers generalizing t with
  | nil =>
      obtain ⟨-, rfl⟩ := pure_eq_ok.mp h
      exact .refl t
  | cons n numbers ih =>
      obtain ⟨page, u, hrun, hrest⟩ := bind_eq_ok.mp h
      obtain ⟨hpage, rfl⟩ := Btree.fetchPage_eq_ok.mp hrun
      obtain ⟨undone, v, hrun, hrest⟩ := bind_eq_ok.mp hrest
      obtain ⟨hundo, rfl⟩ := ofExcept_eq_ok.mp hrun
      obtain ⟨_, w, hstore, hmore⟩ := bind_eq_ok.mp hrest
      obtain rfl := pagerStorePage_eq_ok.mp hstore
      exact (Btree.Shrinks.set hpage (undo_shrinks hundo) _).trans (ih hmore)

theorem undoPages_ownedAt {T : Nat} (hT : T ≠ 0) {numbers : List Nat}
    {t t' : Btree size} (h : undoPages T numbers t = .ok () t') {n : Nat}
    (hn : n ∈ numbers) : ¬ t'.OwnedAt T n := by
  induction numbers generalizing t with
  | nil => cases hn
  | cons m numbers ih =>
      obtain ⟨page, u, hrun, hrest⟩ := bind_eq_ok.mp h
      obtain ⟨hpage, rfl⟩ := Btree.fetchPage_eq_ok.mp hrun
      obtain ⟨undone, v, hrun, hrest⟩ := bind_eq_ok.mp hrest
      obtain ⟨hundo, rfl⟩ := ofExcept_eq_ok.mp hrun
      obtain ⟨_, w, hstore, hmore⟩ := bind_eq_ok.mp hrest
      obtain rfl := pagerStorePage_eq_ok.mp hstore
      rcases List.mem_cons.mp hn with rfl | hn
      · intro howned
        obtain ⟨contents, hleaf, o, ho, howns⟩ :=
          (undoPages_shrinks hmore).ownedAt hT howned
        obtain ⟨page', hpage', -, rfl⟩ := Btree.leafAt_eq_some.mp hleaf
        have hlt := (List.getElem?_eq_some_iff.mp hpage).1
        simp only [List.getElem?_set_self hlt, Option.some.injEq] at hpage'
        obtain ⟨htid, hxid⟩ := undo_gone hundo (hpage' ▸ ho)
        simp only [decide_eq_false_iff_not, decide_eq_true_eq] at htid hxid
        rcases howns with heq | heq
        · exact htid heq
        · exact hT (heq.symm.trans (hxid heq))
      · exact ih hmore hn

theorem recoverPages_shrinks {dead numbers : List Nat} {t t' : Btree size}
    (h : recoverPages dead numbers t = .ok () t') : t.Shrinks t' := by
  induction numbers generalizing t with
  | nil =>
      obtain ⟨-, rfl⟩ := pure_eq_ok.mp h
      exact .refl t
  | cons n numbers ih =>
      obtain ⟨page, u, hrun, hrest⟩ := bind_eq_ok.mp h
      obtain ⟨hpage, rfl⟩ := Btree.fetchPage_eq_ok.mp hrun
      simp only at hrest
      split at hrest
      · obtain ⟨recovered, v, hrun, hrest⟩ := bind_eq_ok.mp hrest
        obtain ⟨hundo, rfl⟩ := ofExcept_eq_ok.mp hrun
        obtain ⟨_, w, hstore, hmore⟩ := bind_eq_ok.mp hrest
        obtain rfl := pagerStorePage_eq_ok.mp hstore
        exact (Btree.Shrinks.set hpage (undo_shrinks hundo) _).trans (ih hmore)
      · exact ih hrest

/-- No leaf that was visited has an object of a dead transaction. -/
theorem recoverPages_ownedAt {dead numbers : List Nat} {t t' : Btree size}
    (h : recoverPages dead numbers t = .ok () t') {n : Nat} (hn : n ∈ numbers)
    {T : Nat} (hT : T ≠ 0) (hdead : T ∈ dead) : ¬ t'.OwnedAt T n := by
  induction numbers generalizing t with
  | nil => cases hn
  | cons m numbers ih =>
      obtain ⟨page, u, hrun, hrest⟩ := bind_eq_ok.mp h
      obtain ⟨hpage, rfl⟩ := Btree.fetchPage_eq_ok.mp hrun
      simp only at hrest
      split at hrest
      · obtain ⟨recovered, v, hrun, hrest⟩ := bind_eq_ok.mp hrest
        obtain ⟨hundo, rfl⟩ := ofExcept_eq_ok.mp hrun
        obtain ⟨_, w, hstore, hmore⟩ := bind_eq_ok.mp hrest
        obtain rfl := pagerStorePage_eq_ok.mp hstore
        rcases List.mem_cons.mp hn with rfl | hn
        · intro howned
          obtain ⟨contents, hleaf, o, ho, howns⟩ :=
            (recoverPages_shrinks hmore).ownedAt hT howned
          obtain ⟨page', hpage', -, rfl⟩ := Btree.leafAt_eq_some.mp hleaf
          have hlt := (List.getElem?_eq_some_iff.mp hpage).1
          simp only [List.getElem?_set_self hlt, Option.some.injEq] at hpage'
          obtain ⟨htid, hxid⟩ := undo_gone hundo (hpage' ▸ ho)
          rcases howns with heq | heq
          · simp [heq, hdead] at htid
          · exact hT (heq.symm.trans (hxid (by simp [heq, hdead])))
        · exact ih hmore hn
      next hnone =>
        rcases List.mem_cons.mp hn with rfl | hn
        · intro howned
          obtain ⟨contents, hleaf, o, ho, howns⟩ :=
            (recoverPages_shrinks hrest).ownedAt hT howned
          obtain ⟨page', hpage', hkind, rfl⟩ := Btree.leafAt_eq_some.mp hleaf
          obtain rfl : page = page' := Option.some.inj (hpage.symm.trans hpage')
          refine hnone ⟨hkind, List.any_eq_true.mpr ⟨o, ho, ?_⟩⟩
          rcases howns with heq | heq <;> simp [heq, hdead]
        · exact ih hrest hn

end Storage
end Vsql
