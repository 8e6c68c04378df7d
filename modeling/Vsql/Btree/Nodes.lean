import Vsql.Btree.Leaves
import Vsql.Foundation.ForestSplits

/-!
# The pages of the B-tree as a search forest

A leaf is a node with the keys of its objects, and any other page is a node with an
entry for each pointer.  The objects of a page that is not a leaf have different
keys, so that their order is given by the entries.
-/

namespace Vsql.Btree

open Foundation StateError

variable {size : PageSize}

def nodeOf (kind : PageKind) (objects : List PageObject) : Node Bytes :=
  match kind with
  | .leaf => .leaf (objects.map (·.key))
  | .notLeaf => .inner (objects.map fun o => (o.key, target o))

def nodes (t : Btree size) : NodeMap Bytes :=
  fun n => (t.pages[n]?).map fun page => nodeOf page.kind page.objects

theorem nodes_eq_some {t : Btree size} {n : Nat} {page : Page size}
    (h : t.pages[n]? = some page) : nodes t n = some (nodeOf page.kind page.objects) := by
  rw [nodes, h]
  rfl

theorem nodes_eq_inner {t : Btree size} {n : Nat} {entries : List (Bytes × Nat)}
    (h : nodes t n = some (.inner entries)) : ∃ page, t.pages[n]? = some page ∧
      page.kind = .notLeaf ∧ page.objects.map (fun o => (o.key, target o)) = entries := by
  obtain ⟨page, hpage, hnode⟩ := Option.map_eq_some_iff.mp h
  refine ⟨page, hpage, ?_⟩
  cases hkind : page.kind with
  | leaf =>
      rw [hkind] at hnode
      cases hnode
  | notLeaf =>
      rw [hkind] at hnode
      cases hnode
      exact ⟨rfl, rfl⟩

theorem nodes_eq_leaf {t : Btree size} {n : Nat} {keys : List Bytes}
    (h : nodes t n = some (.leaf keys)) : ∃ page, t.pages[n]? = some page ∧
      page.kind = .leaf ∧ page.objects.map (·.key) = keys := by
  obtain ⟨page, hpage, hnode⟩ := Option.map_eq_some_iff.mp h
  refine ⟨page, hpage, ?_⟩
  cases hkind : page.kind with
  | leaf =>
      rw [hkind] at hnode
      cases hnode
      exact ⟨rfl, rfl⟩
  | notLeaf =>
      rw [hkind] at hnode
      cases hnode

theorem nodes_isSome {t : Btree size} {n : Nat} : (nodes t n).isSome ↔ n < t.pages.length := by
  simp [nodes]

theorem nodes_eq_none {t : Btree size} {n : Nat} (h : t.pages.length ≤ n) :
    nodes t n = none := by
  rw [nodes, List.getElem?_eq_none h]
  rfl

theorem nodes_set {t t' : Btree size} {n : Nat} {page : Page size}
    (h : t'.pages = t.pages.set n page) (hn : n < t.pages.length) :
    nodes t' = Function.update (nodes t) n (some (nodeOf page.kind page.objects)) := by
  funext m
  rw [nodes, h]
  by_cases hm : m = n
  · subst hm
    rw [List.getElem?_set_self hn, Function.update_self]
    rfl
  · rw [List.getElem?_set_ne (Ne.symm hm), Function.update_of_ne hm]
    rfl

theorem nodes_append {t t' : Btree size} {pages : List (Page size)}
    (h : t'.pages = t.pages ++ pages) :
    nodes t' = placeFrom (nodes t) t.pages.length
      (pages.map fun page => nodeOf page.kind page.objects) := by
  induction pages generalizing t with
  | nil =>
      rw [List.append_nil] at h
      funext m
      rw [nodes, h]
      rfl
  | cons page pages ih =>
      let u : Btree size := { t with pages := t.pages ++ [page] }
      have hu : nodes u = Function.update (nodes t) t.pages.length
          (some (nodeOf page.kind page.objects)) := by
        funext m
        change (u.pages[m]?).map _ = _
        have hpages : u.pages = t.pages ++ [page] := rfl
        rw [hpages]
        by_cases hm : m = t.pages.length
        · subst hm
          simp
        · rw [Function.update_of_ne hm, nodes]
          by_cases hlt : m < t.pages.length
          · rw [List.getElem?_append_left hlt]
          · rw [List.getElem?_eq_none (by simp; omega), List.getElem?_eq_none (by omega)]
      have hrest := @ih u (by rw [h]; simp [u])
      rw [hrest, hu, List.map_cons, placeFrom]
      simp [u]

/-! ## The order of the objects -/

theorem eq_of_strict {l l' : List PageObject} (hperm : l.Perm l')
    (hstrict : l.Pairwise fun a b => a.key < b.key)
    (hsorted : l'.Pairwise fun a b => a.key ≤ b.key) : l = l' := by
  have hle : l.Pairwise fun a b => a.key ≤ b.key := hstrict.imp le_of_lt
  refine List.Perm.eq_of_pairwise (fun a b ha hb hab hba => ?_) hle hsorted hperm
  have hne : l.Pairwise fun a b => a.key = b.key → a = b :=
    hstrict.imp fun hlt heq => absurd heq hlt.ne
  refine List.Pairwise.forall_of_forall_of_flip (fun _ _ _ => rfl) hne ?_ ha
    (hperm.mem_iff.mpr hb) (le_antisymm hab hba)
  exact hstrict.imp fun hlt heq => absurd heq hlt.ne'

theorem map_key_eq {l l' : List PageObject} (hperm : l.Perm l')
    (hl : l.Pairwise fun a b => a.key ≤ b.key) (hl' : l'.Pairwise fun a b => a.key ≤ b.key) :
    l.map (·.key) = l'.map (·.key) :=
  List.Perm.eq_of_pairwise (fun _ _ _ _ => le_antisymm) (List.pairwise_map.mpr hl)
    (List.pairwise_map.mpr hl') (hperm.map _)

/-! ## Pages that are built -/

theorem pairwise_sortObjects_append {page : Page size} {o : PageObject} {page' : Page size}
    (h : page.add o = .ok page') : Ordered page'.objects := by
  rw [(kind_add h).2]
  exact sortObjects_sorted _

theorem room_of_add {page page' : Page size} {o : PageObject} (h : page.add o = .ok page') :
    (versionsOf o.key page.objects).length < 2 := by
  have hroom : ¬(page.versions o.key).length ≥ 2 := by
    unfold Page.add at h
    split at h
    · split at h
      · cases h
      · next hroom => exact hroom
    · cases h
  rw [Page.versions, List.length_map] at hroom
  exact not_le.mp hroom

theorem length_versionsOf_cons {o : PageObject} {objects : List PageObject}
    (hroom : (versionsOf o.key objects).length < 2)
    (hobjects : ∀ key, (versionsOf key objects).length ≤ 2) (key : Bytes) :
    (versionsOf key (o :: objects)).length ≤ 2 := by
  by_cases hkey : o.key = key
  · rw [versionsOf_cons_self hkey, List.length_cons, ← hkey]
    exact hroom
  · have hskip : versionsOf key (o :: objects) = versionsOf key objects :=
      List.filter_cons_of_neg (by simpa using hkey)
    rw [hskip]
    exact hobjects key

theorem length_versionsOf_add {page page' : Page size} {o : PageObject} (h : page.add o = .ok page')
    (hpage : ∀ key, (versionsOf key page.objects).length ≤ 2) (key : Bytes) :
    (versionsOf key page'.objects).length ≤ 2 := by
  have hperm : page'.objects.Perm (o :: page.objects) := by
    rw [(kind_add h).2]
    exact (sortObjects_perm _).trans (List.perm_append_singleton o page.objects)
  rw [versionsOf, (hperm.filter _).length_eq]
  exact length_versionsOf_cons (room_of_add h) hpage key

theorem buildPage_spec {kind : PageKind} {objects : List PageObject} {page : Page size}
    (h : buildPage kind objects = .ok page) :
    page.kind = kind ∧ page.objects.Perm objects ∧ Ordered page.objects ∧
      ∀ key, (versionsOf key page.objects).length ≤ 2 := by
  obtain ⟨hkind, hperm⟩ := buildPage_ok h
  have hfold : ∀ (objects : List PageObject) (start page : Page size),
      objects.foldlM (fun page o => page.add o) start = .ok page →
      Ordered start.objects ∧ (∀ key, (versionsOf key start.objects).length ≤ 2) →
      Ordered page.objects ∧ ∀ key, (versionsOf key page.objects).length ≤ 2 := by
    intro objects
    induction objects with
    | nil =>
        rintro start page h hstart
        cases h
        exact hstart
    | cons o objects ih =>
        intro start page h hstart
        rw [List.foldlM_cons] at h
        cases hadd : start.add o with
        | error e =>
            rw [hadd] at h
            cases h
        | ok next =>
            rw [hadd] at h
            exact ih next page h
              ⟨pairwise_sortObjects_append hadd, length_versionsOf_add hadd hstart.2⟩
  exact ⟨hkind, hperm, hfold objects (Page.new kind) page h
    ⟨List.Pairwise.nil, fun key => Nat.zero_le _⟩⟩

/-- The objects of a page that is not a leaf have different keys. -/
def Strict (objects : List PageObject) : Prop :=
  objects.Pairwise fun a b => a.key < b.key

theorem Strict.ordered {objects : List PageObject} (h : Strict objects) : Ordered objects :=
  h.imp le_of_lt

theorem nodeOf_buildPage {kind : PageKind} {objects : List PageObject} {page : Page size}
    (h : buildPage kind objects = .ok page) (hordered : Ordered objects)
    (hstrict : kind = .notLeaf → Strict objects) :
    nodeOf page.kind page.objects = nodeOf kind objects := by
  obtain ⟨hkind, hperm, hsorted, -⟩ := buildPage_spec h
  rw [hkind]
  cases kind with
  | leaf => exact congrArg Node.leaf (map_key_eq hperm hsorted hordered)
  | notLeaf => rw [eq_of_strict hperm.symm (hstrict rfl) hsorted]

/-! ## Groups -/

def headKey (group : List PageObject) : Bytes := (group.head?.map (·.key)).getD []

theorem splitsInto_groups {kind : PageKind} {first : List PageObject}
    {groups : List (List PageObject)} (hne : ∀ g ∈ first :: groups, g ≠ [])
    (hsep : (first :: groups).Pairwise fun g g' => ∀ a ∈ g, ∀ b ∈ g', a.key < b.key) :
    SplitsInto (nodeOf kind (first :: groups).flatten) (nodeOf kind first)
      (groups.map fun g => (headKey g, nodeOf kind g)) := by
  induction groups generalizing first with
  | nil =>
      rw [List.flatten_cons, List.flatten_nil, List.append_nil]
      exact .one _
  | cons g groups ih =>
      have hfirst := hne first (by simp)
      have hg := hne g (by simp)
      have hrest := @ih g (fun g' hg' => hne g' (List.mem_cons_of_mem _ hg'))
        (List.pairwise_cons.mp hsep).2
      refine .cons ?_ hrest
      obtain ⟨o, g, rfl⟩ := List.exists_cons_of_ne_nil hg
      rw [List.flatten_cons]
      cases kind with
      | leaf =>
          have hlt := (List.pairwise_cons.mp hsep).1 (o :: g) (by simp)
          simp only [nodeOf, List.map_append]
          refine .leaf (by simpa using hfirst) rfl fun y hy => ?_
          obtain ⟨a, ha, rfl⟩ := List.mem_map.mp hy
          exact hlt a ha o (by simp)
      | notLeaf =>
          simp only [nodeOf, List.map_append]
          exact .inner (by simpa using hfirst) rfl

theorem splitObjectsInto_mem_ne_nil {last : PageObject} {before : List PageObject} {consumed : Nat}
    {objects : List PageObject} :
    ∀ g ∈ splitObjectsInto size (last :: before) consumed objects, g ≠ [] := by
  induction objects generalizing last before consumed with
  | nil => simp [splitObjectsInto]
  | cons object objects ih =>
      rw [splitObjectsInto_cons]
      split
      · exact ih
      · split
        · next hmoved =>
            rw [List.forall_mem_cons]
            exact ⟨by simpa using hmoved.1, ih⟩
        · rw [List.forall_mem_cons]
          exact ⟨by simp, ih⟩

theorem splitObjects_mem_ne_nil {objects : List PageObject} (h : objects ≠ []) :
    ∀ g ∈ splitObjects size objects, g ≠ [] := by
  obtain ⟨o, objects, rfl⟩ := List.exists_cons_of_ne_nil h
  exact splitObjectsInto_mem_ne_nil

theorem groupPointers_eq {groups : List (List PageObject)} {numbers : List Nat}
    (hne : ∀ g ∈ groups, g ≠ []) :
    groupPointers groups numbers =
      (groups.zip numbers).map fun (g, n) => pointer (headKey g) n := by
  unfold groupPointers
  rw [← List.filterMap_eq_map]
  refine List.filterMap_congr fun p hp => ?_
  obtain ⟨o, g, hg⟩ := List.exists_cons_of_ne_nil (hne p.1 (List.of_mem_zip hp).1)
  obtain ⟨g', n⟩ := p
  obtain rfl : g' = o :: g := hg
  rfl

end Vsql.Btree
