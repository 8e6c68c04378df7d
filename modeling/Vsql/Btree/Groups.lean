import Vsql.Btree

/-!
# The groups of a split

A split puts the objects of a page, in their order, into groups that each fit
on a page.
-/

namespace Vsql.Btree

variable {size : PageSize}

theorem splitObjectsInto_flatten (group : List PageObject) (consumed : Nat)
    (objects : List PageObject) :
    (splitObjectsInto size group consumed objects).flatten =
      group.reverse ++ objects := by
  induction objects generalizing group consumed with
  | nil => simp [splitObjectsInto]
  | cons object objects ih =>
      cases group with
      | nil => simp [splitObjectsInto, ih]
      | cons last before =>
          simp only [splitObjectsInto]
          split
          · simp [ih]
          · split <;> simp [ih]

theorem splitObjects_flatten (objects : List PageObject) :
    (splitObjects size objects).flatten = objects :=
  splitObjectsInto_flatten [] 0 objects

theorem splitObjectsInto_ne_nil (group : List PageObject) (consumed : Nat)
    (objects : List PageObject) :
    splitObjectsInto size group consumed objects ≠ [] := by
  induction objects generalizing group consumed with
  | nil => simp [splitObjectsInto]
  | cons object objects ih =>
      cases group with
      | nil => exact ih _ _
      | cons last before =>
          simp only [splitObjectsInto]
          split
          · exact ih _ _
          · split <;> simp

/-! ## What a group holds -/

/-- A step of `splitObjectsInto` when a group is being filled. -/
theorem splitObjectsInto_cons (last : PageObject) (before : List PageObject) (consumed : Nat)
    (object : PageObject) (objects : List PageObject) :
    splitObjectsInto size (last :: before) consumed (object :: objects) =
      if consumed + object.length ≤ maxAllowedInPage size then
        splitObjectsInto size (object :: last :: before) (consumed + object.length) objects
      else if before ≠ [] ∧ last.key = object.key ∧
          last.length + object.length ≤ maxAllowedInPage size then
        before.reverse :: splitObjectsInto size [object, last] (last.length + object.length) objects
      else
        (last :: before).reverse :: splitObjectsInto size [object] object.length objects := rfl

@[simp] theorem objectsSize_reverse (objects : List PageObject) :
    objectsSize objects.reverse = objectsSize objects :=
  objectsSize_perm (List.reverse_perm objects)

/-- A group is not empty and fits a page. -/
def Fits (size : PageSize) (group : List PageObject) : Prop :=
  group ≠ [] ∧ objectsSize group ≤ maxAllowedInPage size

theorem splitObjectsInto_fits {last : PageObject} {before : List PageObject} {consumed : Nat}
    {objects : List PageObject} (hconsumed : consumed = objectsSize (last :: before))
    (hgroup : consumed ≤ maxAllowedInPage size)
    (hobjects : ∀ o ∈ objects, o.length ≤ maxAllowedInPage size) :
    ∀ group ∈ splitObjectsInto size (last :: before) consumed objects, Fits size group := by
  induction objects generalizing last before consumed with
  | nil =>
      intro group hmem
      rw [List.mem_singleton.1 hmem]
      refine ⟨by simp, ?_⟩
      rw [objectsSize_reverse, ← hconsumed]
      exact hgroup
  | cons object objects ih =>
      rw [List.forall_mem_cons] at hobjects
      rw [objectsSize_cons] at hconsumed
      rw [splitObjectsInto_cons]
      split
      · next hfits =>
          apply ih _ hfits hobjects.2
          rw [objectsSize_cons, objectsSize_cons, hconsumed, Nat.add_comm]
      · split
        · next hmoved =>
            obtain ⟨hne, -, hboth⟩ := hmoved
            rw [List.forall_mem_cons]
            constructor
            · refine ⟨by simpa using hne, ?_⟩
              rw [objectsSize_reverse]
              omega
            · apply ih _ hboth hobjects.2
              simp [Nat.add_comm]
        · rw [List.forall_mem_cons]
          constructor
          · refine ⟨by simp, ?_⟩
            rw [objectsSize_reverse, objectsSize_cons, ← hconsumed]
            exact hgroup
          · apply ih _ hobjects.1 hobjects.2
            simp

/-! ## The versions of a key -/

def Ordered (objects : List PageObject) : Prop :=
  objects.Pairwise fun a b => a.key ≤ b.key

instance (objects : List PageObject) : Decidable (Ordered objects) :=
  inferInstanceAs (Decidable (objects.Pairwise fun a b => a.key ≤ b.key))

def versionsOf (key : Foundation.Bytes) (objects : List PageObject) : List PageObject :=
  objects.filter fun o => o.key = key

/-- Two groups only share a key that has more than two versions. -/
def Apart (all first second : List PageObject) : Prop :=
  ∀ a ∈ first, ∀ b ∈ second, a.key = b.key → 2 < (versionsOf a.key all).length

theorem versionsOf_append (key : Foundation.Bytes) (first second : List PageObject) :
    versionsOf key (first ++ second) = versionsOf key first ++ versionsOf key second :=
  List.filter_append ..

theorem length_versionsOf_suffix {key : Foundation.Bytes} {first second : List PageObject}
    (h : first <:+ second) : (versionsOf key first).length ≤ (versionsOf key second).length :=
  (h.sublist.filter _).length_le

theorem versionsOf_cons_self {key : Foundation.Bytes} {o : PageObject} (h : o.key = key)
    (objects : List PageObject) : versionsOf key (o :: objects) = o :: versionsOf key objects :=
  List.filter_cons_of_pos (decide_eq_true h)

theorem length_versionsOf_pos {o : PageObject} {objects : List PageObject} (h : o ∈ objects) :
    0 < (versionsOf o.key objects).length :=
  List.length_pos_of_mem (List.mem_filter.2 ⟨h, decide_eq_true rfl⟩)

/-- What is between two objects with the same key has it as well. -/
theorem Ordered.key_eq {before after : List PageObject} {a x b : PageObject}
    (h : Ordered (before ++ x :: after)) (ha : a ∈ before ∨ a = x) (hb : b = x ∨ b ∈ after)
    (hkey : a.key = b.key) : x.key = a.key := by
  obtain ⟨-, hafter, hacross⟩ := List.pairwise_append.1 h
  rw [List.pairwise_cons] at hafter
  apply le_antisymm
  · rcases hb with rfl | hb
    · exact hkey.ge
    · rw [hkey]
      exact hafter.1 b hb
  · rcases ha with ha | rfl
    · exact hacross a ha x (List.mem_cons_self ..)
    · exact le_refl _

theorem apart_of_moved {before objects : List PageObject} {last object : PageObject}
    (h : Ordered (before ++ last :: object :: objects)) (hkey : last.key = object.key) :
    Apart (before ++ last :: object :: objects) before (last :: object :: objects) := by
  intro a ha b hb hab
  have hlast : last.key = a.key := h.key_eq (.inl ha) (List.mem_cons.1 hb) hab
  have hobject : object.key = a.key := hkey.symm.trans hlast
  rw [versionsOf_append, versionsOf_cons_self hlast, versionsOf_cons_self hobject,
    List.length_append, List.length_cons, List.length_cons]
  have hpos := length_versionsOf_pos ha
  omega

theorem apart_of_cut {all before objects : List PageObject} {last object : PageObject}
    (h : Ordered ((last :: before).reverse ++ object :: objects)) (hkey : last.key ≠ object.key) :
    Apart all (last :: before).reverse (object :: objects) := by
  intro a ha b hb hab
  have hobject : object.key = a.key := h.key_eq (.inl ha) (List.mem_cons.1 hb) hab
  have hlast : last.key = a.key := by
    rw [List.reverse_cons, List.append_assoc, List.singleton_append] at h
    rw [List.reverse_cons, List.mem_append, List.mem_singleton] at ha
    exact h.key_eq ha (.inr hb) hab
  exact absurd (hlast.trans hobject.symm) hkey

theorem Apart.of_suffix {all all' first second : List PageObject} (h : Apart all first second)
    (hsuffix : all <:+ all') : Apart all' first second := fun a ha b hb hab =>
  Nat.lt_of_lt_of_le (h a ha b hb hab) (length_versionsOf_suffix hsuffix)

/-- The groups that are left hold what is not in the group that is cut off. -/
theorem pairwise_apart_cons {all cut rest : List PageObject} {groups : List (List PageObject)}
    (hflatten : groups.flatten = rest) (hsuffix : rest <:+ all) (hcut : Apart all cut rest)
    (h : groups.Pairwise (Apart rest)) : (cut :: groups).Pairwise (Apart all) := by
  constructor
  · intro group hgroup a ha b hb
    apply hcut a ha b
    rw [← hflatten]
    exact List.mem_flatten_of_mem hgroup hb
  · exact h.imp fun hapart => hapart.of_suffix hsuffix

theorem splitObjectsInto_apart {last : PageObject} {before : List PageObject} {consumed : Nat}
    {objects : List PageObject} (hordered : Ordered ((last :: before).reverse ++ objects))
    (hconsumed : consumed = objectsSize (last :: before))
    (hhalf : ∀ o ∈ last :: objects, o.length ≤ maxAllowedInPage size / 2) :
    (splitObjectsInto size (last :: before) consumed objects).Pairwise
      (Apart ((last :: before).reverse ++ objects)) := by
  induction objects generalizing last before consumed with
  | nil => exact List.pairwise_singleton ..
  | cons object objects ih =>
      rw [objectsSize_cons] at hconsumed
      rw [List.forall_mem_cons, List.forall_mem_cons] at hhalf
      obtain ⟨hlast, hobject, hobjects⟩ := hhalf
      rw [splitObjectsInto_cons]
      split
      · have hsame : (object :: last :: before).reverse ++ objects =
            (last :: before).reverse ++ object :: objects := by simp
        rw [← hsame] at hordered ⊢
        apply ih hordered _ (List.forall_mem_cons.2 ⟨hobject, hobjects⟩)
        rw [objectsSize_cons, objectsSize_cons, hconsumed, Nat.add_comm]
      · next hfull =>
          split
          · next hmoved =>
              have hsame : (last :: before).reverse ++ object :: objects =
                  before.reverse ++ last :: object :: objects := by simp
              rw [hsame] at hordered ⊢
              have hflatten : (splitObjectsInto size [object, last] (last.length + object.length)
                  objects).flatten = last :: object :: objects := splitObjectsInto_flatten ..
              apply pairwise_apart_cons hflatten (List.suffix_append ..)
                (apart_of_moved hordered hmoved.2.1)
              have hrest : Ordered ([object, last].reverse ++ objects) :=
                (List.pairwise_append.1 hordered).2.1
              exact ih hrest (by simp [Nat.add_comm])
                (List.forall_mem_cons.2 ⟨hobject, hobjects⟩)
          · next hcut =>
              have hkey : last.key ≠ object.key := by
                intro hkey
                have hbefore : before = [] := by
                  by_contra hne
                  exact hcut ⟨hne, hkey, by omega⟩
                rw [hbefore, objectsSize_nil] at hconsumed
                omega
              have hflatten : (splitObjectsInto size [object] object.length objects).flatten =
                  object :: objects := splitObjectsInto_flatten ..
              apply pairwise_apart_cons hflatten (List.suffix_append ..)
                (apart_of_cut hordered hkey)
              have hrest : Ordered ([object].reverse ++ objects) :=
                (List.pairwise_append.1 hordered).2.1
              exact ih hrest (by simp) (List.forall_mem_cons.2 ⟨hobject, hobjects⟩)

/-! ## Inserting an object -/

theorem insertObject_eq (obj : PageObject) (objects : List PageObject) :
    insertObject obj objects = objects.orderedInsert (fun a b => a.key ≤ b.key) obj := by
  induction objects with
  | nil => rfl
  | cons o objects ih =>
      unfold insertObject insertPosition at ih ⊢
      rw [List.findIdx?_cons, List.orderedInsert_cons]
      by_cases hle : obj.key ≤ o.key
      · simp only [hle, decide_true, if_true, List.take_zero, List.drop_zero, List.nil_append]
      · rw [if_neg hle, ← ih]
        simp only [hle, decide_false, Bool.false_eq_true, if_false]
        cases objects.findIdx? fun o => decide (obj.key ≤ o.key) with
        | none => rfl
        | some i => rfl

theorem insertObject_perm (obj : PageObject) (objects : List PageObject) :
    (insertObject obj objects).Perm (obj :: objects) := by
  rw [insertObject_eq]
  exact List.perm_orderedInsert _ obj objects

theorem insertObject_ordered (obj : PageObject) {objects : List PageObject}
    (h : Ordered objects) : Ordered (insertObject obj objects) := by
  have : Std.Total fun a b : PageObject => a.key ≤ b.key := ⟨fun a b => le_total a.key b.key⟩
  have : IsTrans PageObject fun a b => a.key ≤ b.key := ⟨fun _ _ _ => le_trans⟩
  rw [insertObject_eq]
  exact List.Pairwise.orderedInsert obj objects h

/-! ## A split -/

/-- The groups are the objects in their order, each group is not empty and fits a page, and a key
with two versions has them in one group. -/
theorem splitObjects_groups {objects : List PageObject} (hordered : Ordered objects)
    (hhalf : ∀ o ∈ objects, o.length ≤ maxAllowedInPage size / 2)
    (hfull : maxAllowedInPage size < objectsSize objects) :
    (splitObjects size objects).flatten = objects ∧
      (∀ group ∈ splitObjects size objects, Fits size group) ∧
      (splitObjects size objects).Pairwise (Apart objects) := by
  refine ⟨splitObjects_flatten objects, ?_⟩
  cases objects with
  | nil => exact absurd hfull (Nat.not_lt_zero _)
  | cons object objects =>
      have hstart : splitObjects size (object :: objects) =
          splitObjectsInto size [object] (0 + object.length) objects := rfl
      have hsize : 0 + object.length = objectsSize [object] := by simp
      have hfits : ∀ o ∈ object :: objects, o.length ≤ maxAllowedInPage size := fun o ho =>
        (hhalf o ho).trans (Nat.div_le_self ..)
      rw [List.forall_mem_cons] at hfits
      rw [hstart]
      constructor
      · exact splitObjectsInto_fits hsize (by simpa using hfits.1) hfits.2
      · exact splitObjectsInto_apart hordered hsize hhalf

def smallPage : PageSize := ⟨116, by decide⟩

/-- An object of 23 bytes, a byte for the key and the value. -/
def keyObject (key : UInt8) (tid length : Nat) : PageObject :=
  .new [key] tid 0 (List.replicate length 0)

/-- The version with the transaction 6 is new. -/
def twoVersions : List PageObject :=
  insertObject (keyObject 2 6 1) [keyObject 1 3 26, keyObject 2 5 26, keyObject 3 4 1]

theorem splitObjects_groups_twoVersions :
    (splitObjects smallPage twoVersions).flatten = twoVersions ∧
      (∀ group ∈ splitObjects smallPage twoVersions, Fits smallPage group) ∧
      (splitObjects smallPage twoVersions).Pairwise (Apart twoVersions) :=
  splitObjects_groups (insertObject_ordered _ (by decide)) (by decide) (by decide)

/-! ## The group that is being filled -/

theorem splitObjectsInto_before {last : PageObject} {before : List PageObject} {consumed : Nat}
    {objects : List PageObject} : ∃ tail groups,
      splitObjectsInto size (last :: before) consumed objects =
        (before.reverse ++ tail) :: groups := by
  induction objects generalizing last before consumed with
  | nil =>
      refine ⟨[last], [], ?_⟩
      rw [splitObjectsInto, List.reverse_cons]
  | cons object objects ih =>
      rw [splitObjectsInto_cons]
      split
      · obtain ⟨tail, groups, hgroups⟩ := @ih object (last :: before) (consumed + object.length)
        refine ⟨last :: tail, groups, ?_⟩
        rw [hgroups, List.reverse_cons, List.append_assoc, List.singleton_append]
      · split
        · exact ⟨[], _, by rw [List.append_nil]⟩
        · exact ⟨[last], _, by rw [List.reverse_cons]⟩

/-- The group that is being filled keeps its objects, unless the last one is moved. -/
theorem splitObjectsInto_group {last : PageObject} {before : List PageObject} {consumed : Nat}
    {objects : List PageObject}
    (h : before ≠ [] → ∀ object ∈ objects.head?, last.key ≠ object.key) :
    ∃ tail groups, splitObjectsInto size (last :: before) consumed objects =
      ((last :: before).reverse ++ tail) :: groups := by
  cases objects with
  | nil => exact ⟨[], [], by rw [splitObjectsInto, List.append_nil]⟩
  | cons object objects =>
      rw [splitObjectsInto_cons]
      split
      · exact splitObjectsInto_before
      · split
        · next hmoved => exact absurd hmoved.2.1 (h hmoved.1 object rfl)
        · exact ⟨[], _, by rw [List.append_nil]⟩

/-! ## Three versions of a key -/

def threeVersions : List PageObject :=
  [keyObject 1 3 26, keyObject 2 4 1, keyObject 2 5 1, keyObject 2 6 1]

/-- The first version stays on the page, and the others start a new one. -/
theorem not_splitObjects_threeVersions :
    ¬∀ (size : PageSize) (objects : List PageObject), Ordered objects →
      (∀ o ∈ objects, o.length ≤ maxAllowedInPage size / 2) →
      maxAllowedInPage size < objectsSize objects →
      (splitObjects size objects).flatten = objects ∧
        (∀ group ∈ splitObjects size objects, Fits size group) ∧
        (splitObjects size objects).Pairwise fun first second =>
          ∀ a ∈ first, ∀ b ∈ second, a.key ≠ b.key := by
  intro h
  have hgroups : splitObjects smallPage threeVersions =
      [[keyObject 1 3 26, keyObject 2 4 1], [keyObject 2 5 1, keyObject 2 6 1]] := by decide
  obtain ⟨-, -, happart⟩ := h smallPage threeVersions (by decide) (by decide) (by decide)
  rw [hgroups, List.pairwise_pair] at happart
  exact happart (keyObject 2 4 1) (by decide) (keyObject 2 5 1) (by decide) rfl

end Vsql.Btree
