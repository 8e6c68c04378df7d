import Vsql.Walk.Positions

/-!
# Calling the iterator after its end

After the last leaf only the root is left in the path, but the objects are still those of the
last leaf.  The iterator gives nothing again if and only if the rest of them, from the position
on that is the number of pointers of the root, is above the range.
-/

namespace Vsql

open Foundation

namespace PageIterator

open Btree

variable {size : PageSize} {t : Btree size}

/-! ## One call -/

theorem skipPages_succ {fuel : Nat} {iter : PageIterator}
    {result : EStateM.Result Failure PageIterator Bool} (h : skipPages t fuel iter = some result) :
    skipPages t (fuel + 1) iter = some result := by
  induction fuel generalizing iter with
  | zero =>
      rw [skipPages] at h ⊢
      split_ifs at h ⊢
      · exact h
      · cases hclimb : climb t iter with
        | error e iter1 => rwa [hclimb] at h
        | ok isFound iter1 =>
            rw [hclimb] at h
            cases isFound with
            | false => exact h
            | true =>
                simp only at h ⊢
                cases hdescend : descend t maxPages iter1 with
                | error e iter2 => rwa [hdescend] at h
                | ok _ iter2 =>
                    rw [hdescend] at h
                    cases h
  | succ fuel ih =>
      rw [skipPages] at h ⊢
      split_ifs at h ⊢
      · exact h
      · cases hclimb : climb t iter with
        | error e iter1 => rwa [hclimb] at h
        | ok isFound iter1 =>
            rw [hclimb] at h
            cases isFound with
            | false => exact h
            | true =>
                simp only at h ⊢
                cases hdescend : descend t maxPages iter1 with
                | error e iter2 => rwa [hdescend] at h
                | ok _ iter2 =>
                    rw [hdescend] at h
                    exact ih h

theorem next_succ {fuel : Nat} {iter : PageIterator} {result : Option PageObject × PageIterator}
    (h : next t fuel iter = some result) : next t (fuel + 1) iter = some result := by
  unfold next at h ⊢
  split_ifs at h ⊢
  · exact h
  · cases hstart : start t iter with
    | error e iter1 => rwa [hstart] at h
    | ok _ iter1 =>
        rw [hstart] at h
        simp only at h ⊢
        cases hskip : skipPages t fuel iter1 with
        | none =>
            rw [hskip] at h
            cases h
        | some result1 =>
            rw [skipPages_succ hskip]
            rwa [hskip] at h

/-- What `next` gives does not depend on the number of leaves that it may go through. -/
theorem next_unique {fuel fuel' : Nat} {iter : PageIterator}
    {result result' : Option PageObject × PageIterator} (h : next t fuel iter = some result)
    (h' : next t fuel' iter = some result') : result = result' := by
  have hmono : ∀ {fuel : Nat} {result}, next t fuel iter = some result → ∀ k,
      next t (fuel + k) iter = some result := by
    intro fuel result h k
    induction k with
    | zero => exact h
    | succ k ih => exact next_succ ih
  have hle := hmono h fuel'
  rw [Nat.add_comm, hmono h' fuel] at hle
  exact (Option.some.inj hle).symm

/-- The result of `next` for an object. -/
def given (t : Btree size) (max : Bytes) (o : PageObject) : Option PageObject :=
  if max < o.key then none
  else if o.isBlobRef then (eval (readBlob o) t).toOption
  else some o

/-- The results of the next calls, after which there is nothing. -/
inductive Ready (t : Btree size) (iter : PageIterator) : List (Option PageObject) → Prop where
  | leaf {rest : List (List PageObject)} (h : AtLeaf t iter rest) :
      Ready t iter ((iter.remaining rest).map (given t iter.max) ++
        none :: t.repeated.map (given t iter.max))
  | ended {objects : List PageObject} (h : AtEnd t iter objects) :
      Ready t iter (objects.map (given t iter.max))

theorem Ready.path_ne {iter : PageIterator} {results : List (Option PageObject)}
    (h : Ready t iter results) : iter.path ≠ [] := by
  cases h with
  | leaf h =>
      obtain ⟨_, _, _, _, _, hpath, -⟩ := h.exists_above
      simp [hpath]
  | ended h =>
      obtain ⟨_, hroot, -⟩ := h
      simp [hroot.path]

theorem start_of_path_ne {iter : PageIterator} (h : iter.path ≠ []) :
    start t iter = .ok () iter :=
  if_neg h

theorem next_eq {fuel : Nat} {iter iter' : PageIterator} {isFound : Bool}
    (hpages : t.pages ≠ []) (hpath : iter.path ≠ [])
    (hskip : skipPages t fuel iter = some (.ok isFound iter')) :
    next t fuel iter = some (if isFound then iter'.take t else (none, iter')) := by
  rw [next, if_neg (by simpa using hpages), start_of_path_ne hpath]
  simp only [hskip]
  cases isFound <;> rfl

/-- The iterator after an object of the same leaf. -/
structure IsNext (iter iter' : PageIterator) : Prop where
  max : iter'.max = iter.max
  objects : iter'.objects = iter.objects
  path : iter'.path = iter.path
  depthIterator : iter'.depthIterator = iter.depthIterator.modifyHead (· + 1)
  parents : iter'.parents = iter.parents

theorem exists_take {iter : PageIterator} (h : iter.position < iter.objects.length) :
    ∃ iter', iter.take t = (given t iter.max iter.objects[iter.position], iter') ∧
      IsNext iter iter' := by
  rw [take, List.getElem?_eq_getElem h]
  simp only [given]
  split_ifs with hmax hblob
  · exact ⟨_, rfl, rfl, rfl, rfl, rfl, rfl⟩
  · cases eval (readBlob iter.objects[iter.position]) t with
    | error e => exact ⟨_, rfl, rfl, rfl, rfl, rfl, rfl⟩
    | ok object => exact ⟨_, rfl, rfl, rfl, rfl, rfl, rfl⟩
  · exact ⟨_, rfl, rfl, rfl, rfl, rfl, rfl⟩

theorem AtLeaf.isNext {iter iter' : PageIterator} {rest : List (List PageObject)}
    (h : AtLeaf t iter rest) (hnext : IsNext iter iter') :
    AtLeaf t iter' rest ∧ iter'.position = iter.position + 1 := by
  obtain ⟨⟨height, m, x, path, depth, hpath, hdepth, habove, hpage⟩, hcached⟩ := h
  have hdepth' : iter'.depthIterator = (x + 1) :: depth := by
    rw [hnext.depthIterator, hdepth, List.modifyHead_cons]
  refine ⟨⟨⟨height, m, x + 1, path, depth, by rw [hnext.path, hpath], hdepth', habove, ?_⟩, ?_⟩, ?_⟩
  · rwa [hnext.objects]
  · rwa [hnext.path, hnext.parents]
  · simp [position, hdepth, hdepth']

theorem exists_next_leaf {iter : PageIterator} {rest : List (List PageObject)}
    (hpages : t.pages ≠ []) (hpath : iter.path ≠ []) (h : AtLeaf t iter rest) :
    ∃ fuel iter', iter'.max = iter.max ∧
      ((iter.remaining rest = [] ∧ next t fuel iter = some (none, iter') ∧
          AtEnd t iter' t.repeated) ∨
        ∃ o objects rest', iter.remaining rest = o :: objects ∧
          next t fuel iter = some (given t iter.max o, iter') ∧ AtLeaf t iter' rest' ∧
          iter'.remaining rest' = objects) := by
  obtain ⟨fuel, isFound, iter1, hskip, hmax, ⟨rfl, hnil, hend⟩ |
    ⟨rfl, hposition, rest', hleaf, hremaining⟩⟩ := exists_skipPages h
  · exact ⟨fuel, iter1, hmax, .inl ⟨hnil, next_eq hpages hpath hskip, hend⟩⟩
  · obtain ⟨iter2, htake, hnext⟩ := exists_take (t := t) hposition
    obtain ⟨hleaf2, hposition2⟩ := hleaf.isNext hnext
    refine ⟨fuel, iter2, hnext.max.trans hmax, .inr ⟨iter1.objects[iter1.position], _, rest', ?_,
      ?_, hleaf2, rfl⟩⟩
    · rw [hremaining, remaining, List.drop_eq_getElem_cons hposition, remaining, hposition2,
        hnext.objects, List.cons_append]
    · rw [next_eq hpages hpath hskip, if_pos rfl, htake, hmax]

theorem exists_next_ended {iter : PageIterator} {objects : List PageObject}
    (hpages : t.pages ≠ []) (h : AtEnd t iter objects) : ∃ iter', iter'.max = iter.max ∧
      next t 0 iter = some ((objects.map (given t iter.max)).headD none, iter') ∧
      AtEnd t iter' objects.tail := by
  obtain ⟨x, ⟨hpath, hdepth⟩, rfl⟩ := h
  have hne : iter.path ≠ [] := by simp [hpath]
  have hx : iter.position = x := by rw [position, hdepth, List.headD_cons]
  by_cases hposition : iter.position < iter.objects.length
  · obtain ⟨iter', htake, hnext⟩ := exists_take (t := t) hposition
    have hskip : skipPages t 0 iter = some (.ok true iter) := by rw [skipPages, if_pos hposition]
    refine ⟨iter', hnext.max, ?_, x + 1, ⟨?_, ?_⟩, ?_⟩
    · rw [next_eq hpages hne hskip, if_pos rfl, htake]
      subst hx
      rw [List.drop_eq_getElem_cons hposition]
      rfl
    · rw [hnext.path, hpath]
    · rw [hnext.depthIterator, hdepth]
      rfl
    · rw [hnext.objects, List.tail_drop]
  · have hclimb : climb t iter = .ok false iter := by rw [climb, dif_pos (by simp [hpath])]
    have hskip : skipPages t 0 iter = some (.ok false iter) := by
      rw [skipPages, if_neg hposition, hclimb]
    have hnil : iter.objects.drop x = [] := List.drop_of_length_le (by omega)
    refine ⟨iter, rfl, ?_, x, ⟨hpath, hdepth⟩, by rw [hnil, List.tail_nil]⟩
    rw [next_eq hpages hne hskip, hnil]
    rfl

theorem exists_next {iter : PageIterator} {results : List (Option PageObject)}
    (hpages : t.pages ≠ []) (h : Ready t iter results) : ∃ fuel iter',
      next t fuel iter = some (results.headD none, iter') ∧ Ready t iter' results.tail := by
  have hpath := h.path_ne
  cases h with
  | leaf h =>
      obtain ⟨fuel, iter', hmax, ⟨hnil, hnext, hend⟩ |
        ⟨o, objects, rest', hcons, hnext, hleaf, hobjects⟩⟩ := exists_next_leaf hpages hpath h
      · rw [hnil, ← hmax]
        exact ⟨fuel, iter', hnext, .ended hend⟩
      · rw [hcons, ← hmax, ← hobjects]
        rw [← hmax] at hnext
        exact ⟨fuel, iter', hnext, .leaf hleaf⟩
  | ended h =>
      obtain ⟨iter', hmax, hnext, hend⟩ := exists_next_ended hpages h
      refine ⟨0, iter', hnext, ?_⟩
      rw [← hmax, ← List.map_tail]
      exact .ended hend

/-! ## The first call -/

theorem pointerIndex_lt {key : Bytes} {objects : List PageObject} (h : objects ≠ []) :
    pointerIndex key objects < objects.length := by
  have hpos := List.length_pos_iff.mpr h
  unfold pointerIndex
  omega

/-- Searching goes down to a leaf. -/
theorem exists_searchFrom (key : Bytes) {height m fuel : Nat} {path depth : List Nat}
    {rest : List (List PageObject)} (habove : Above t height path depth m rest)
    (htree : IsTree t height m) (hfuel : height ≤ fuel) :
    ∃ pages positions height' m' path' rest', searchFrom key fuel m t = .ok (pages, positions) t ∧
      pages.reverse ++ path = m' :: path' ∧
      Above t (height' + 1) path' (positions.reverse ++ depth) m' rest' ∧
      ∃ page, t.pages[m']? = some page ∧ page.kind = .leaf := by
  induction height generalizing m fuel path depth rest with
  | zero => exact htree.elim
  | succ height ih =>
      obtain ⟨page, hpage, hbelow⟩ := htree
      obtain ⟨fuel, rfl⟩ : ∃ k, fuel = k + 1 := ⟨fuel - 1, by omega⟩
      have hfetch : fetchPage m t = .ok page t := fetchPage_eq_ok.mpr ⟨hpage, rfl⟩
      unfold searchFrom
      cases hkind : page.kind with
      | leaf =>
          refine ⟨[m], [], height, m, path, rest, ?_, rfl, habove, page, hpage, hkind⟩
          rw [StateError.bind_eq_ok]
          exact ⟨page, t, hfetch, by simp only [hkind]; rfl⟩
      | notLeaf =>
          obtain ⟨hne, htrees⟩ := hbelow hkind
          have hindex := @pointerIndex_lt key _ hne
          have hpointer := List.getElem?_eq_getElem hindex
          have habove' := Above.page hpage hkind htrees hpointer habove
          obtain ⟨pages, positions, height', m', path', rest', hsearch, hpages, hup, hleaf⟩ :=
            @ih _ fuel _ _ _ habove' (htrees _ (List.getElem_mem hindex)) (by omega)
          refine ⟨m :: pages, pointerIndex key page.objects :: positions, height', m', path', rest',
            ?_, ?_, ?_, hleaf⟩
          · rw [StateError.bind_eq_ok]
            refine ⟨page, t, hfetch, ?_⟩
            simp only [hkind, hpointer]
            rw [StateError.bind_eq_ok]
            exact ⟨(pages, positions), t, hsearch, rfl⟩
          · rw [List.reverse_cons, List.append_assoc, List.singleton_append, hpages]
          · rwa [List.reverse_cons, List.append_assoc, List.singleton_append]

theorem exists_start (htree : IsTree t maxPages t.rootPage) (min max : Bytes) :
    ∃ iter rest, start t (new min max) = .ok () iter ∧ iter.max = max ∧ AtLeaf t iter rest := by
  obtain ⟨pages, positions, height, m, path, rest, hsearch, hpages, habove, page, hpage, hkind⟩ :=
    exists_searchFrom min .root htree le_rfl
  rw [List.append_nil] at hpages habove
  have hsearch : searchPage min t = .ok (pages, positions) t := hsearch
  have hnew : (new min max).path = [] := rfl
  rw [start, if_pos hnew]
  simp only [new, hsearch, hpages, List.head?_cons, Option.bind_some, hpage]
  exact ⟨_, rest, rfl, rfl, ⟨height, m, _, path, _, rfl, rfl, habove, page, hpage, hkind, rfl⟩,
    [], List.nil_suffix, rfl⟩

theorem next_new {min max : Bytes} {iter : PageIterator}
    (hstart : start t (new min max) = .ok () iter) (hpath : iter.path ≠ []) (hpages : t.pages ≠ [])
    (fuel : Nat) : next t fuel (new min max) = next t fuel iter := by
  have hlength : ¬t.pages.length = 0 := by simpa using hpages
  rw [next, next, if_neg hlength, if_neg hlength, hstart, start_of_path_ne hpath]

/-! ## All calls -/

/-- The results of calls of `next`, one after the other. -/
inductive Calls (t : Btree size) : PageIterator → List (Option PageObject) → PageIterator → Prop
  where
  | nil (iter : PageIterator) : Calls t iter [] iter
  | cons {iter iter' iter'' : PageIterator} {fuel : Nat} {result : Option PageObject}
      {results : List (Option PageObject)} (hnext : next t fuel iter = some (result, iter'))
      (hcalls : Calls t iter' results iter'') : Calls t iter (result :: results) iter''

/-- The results of `n` calls. -/
def calls (t : Btree size) (fuel : Nat) : Nat → PageIterator → Option (List (Option PageObject))
  | 0, _ => some []
  | n + 1, iter => do
      let (result, iter) ← next t fuel iter
      let results ← calls t fuel n iter
      pure (result :: results)

theorem exists_calls_of_eq {fuel n : Nat} {iter : PageIterator}
    {results : List (Option PageObject)} (h : calls t fuel n iter = some results) :
    ∃ iter', Calls t iter results iter' := by
  induction n generalizing iter results with
  | zero =>
      cases h
      exact ⟨iter, .nil iter⟩
  | succ n ih =>
      obtain ⟨⟨result, iter1⟩, hnext, h⟩ := Option.bind_eq_some_iff.mp h
      obtain ⟨rest, hrest, h⟩ := Option.bind_eq_some_iff.mp h
      cases h
      obtain ⟨iter', hcalls⟩ := ih hrest
      exact ⟨iter', .cons hnext hcalls⟩

/-- Every call ends, and after a call that gives nothing all of the calls do. -/
structure Fused (t : Btree size) (min max : Bytes) : Prop where
  exists_calls : ∀ n, ∃ results iter, results.length = n ∧ Calls t (new min max) results iter
  fused : ∀ results iter, Calls t (new min max) results iter →
    results.Pairwise fun result result' => result = none → result' = none

/-- The results, and nothing after them. -/
def padded (results : List (Option PageObject)) : Nat → List (Option PageObject)
  | 0 => []
  | n + 1 => results.headD none :: padded results.tail n

theorem Ready.exists_calls (hpages : t.pages ≠ []) (n : Nat) {iter : PageIterator}
    {results : List (Option PageObject)} (h : Ready t iter results) :
    ∃ iter', Calls t iter (padded results n) iter' := by
  induction n generalizing iter results with
  | zero => exact ⟨iter, .nil iter⟩
  | succ n ih =>
      obtain ⟨fuel, iter', hnext, hready⟩ := exists_next hpages h
      obtain ⟨iter'', hcalls⟩ := ih hready
      exact ⟨iter'', .cons hnext hcalls⟩

theorem Ready.eq_padded (hpages : t.pages ≠ []) {iter iter' : PageIterator}
    {results results' : List (Option PageObject)} (h : Ready t iter results)
    (hcalls : Calls t iter results' iter') : results' = padded results results'.length := by
  induction hcalls generalizing results with
  | nil => rfl
  | cons hnext _ ih =>
      obtain ⟨fuel, iter1, hnext1, hready⟩ := exists_next hpages h
      cases next_unique hnext hnext1
      rw [List.length_cons, padded, ← ih hready]

theorem length_padded (results : List (Option PageObject)) (n : Nat) :
    (padded results n).length = n := by
  induction n generalizing results with
  | zero => rfl
  | succ n ih => rw [padded, List.length_cons, ih]

theorem padded_length (results : List (Option PageObject)) :
    padded results results.length = results := by
  induction results with
  | nil => rfl
  | cons result results ih => rw [List.length_cons, padded, List.headD_cons, List.tail_cons, ih]

theorem eq_none_of_mem_padded {n : Nat} {result : Option PageObject}
    (h : result ∈ padded [] n) : result = none := by
  induction n with
  | zero => cases h
  | succ n ih =>
      obtain rfl | h := List.mem_cons.mp h
      · rfl
      · exact ih h

theorem mem_of_mem_padded {results : List (Option PageObject)} {n : Nat}
    {result : Option PageObject} (h : result ∈ padded results n) :
    result ∈ results ∨ result = none := by
  induction n generalizing results with
  | zero => cases h
  | succ n ih =>
      cases results with
      | nil => exact .inr (eq_none_of_mem_padded h)
      | cons first results =>
          obtain rfl | h := List.mem_cons.mp h
          · exact .inl List.mem_cons_self
          · exact (ih h).imp_left (List.mem_cons_of_mem first)

theorem pairwise_padded {results : List (Option PageObject)} (n : Nat)
    (h : results.Pairwise fun result result' => result = none → result' = none) :
    (padded results n).Pairwise fun result result' => result = none → result' = none := by
  induction n generalizing results with
  | zero => exact .nil
  | succ n ih =>
      cases results with
      | nil => exact .cons (fun result hresult _ => eq_none_of_mem_padded hresult) (ih .nil)
      | cons first results =>
          obtain ⟨hfirst, hrest⟩ := List.pairwise_cons.mp h
          refine .cons (fun result hresult hnone => ?_) (ih hrest)
          exact (mem_of_mem_padded hresult).elim (fun hmem => hfirst result hmem hnone) id

/-- A tree as it is stored: its objects are in order, and all parts of the blobs are there. -/
structure IsStored (t : Btree size) : Prop where
  tree : IsTree t maxPages t.rootPage
  sorted : t.leaves.flatten.Pairwise fun a b => a.key ≤ b.key
  blobs : ∀ o ∈ t.leaves.flatten, o.isBlobRef → ∃ object, eval (readBlob o) t = .ok object

theorem given_eq_none {max : Bytes} {o : PageObject} (ht : IsStored t)
    (ho : o ∈ t.leaves.flatten) : given t max o = none ↔ max < o.key := by
  unfold given
  split_ifs with hmax hblob
  · simp [hmax]
  · obtain ⟨object, hobject⟩ := ht.blobs o ho hblob
    simp [hobject, hmax, Except.toOption]
  · simp [hmax]

theorem AtLeaf.remaining_sublist {iter : PageIterator} {rest : List (List PageObject)}
    (h : AtLeaf t iter rest) : (iter.remaining rest).Sublist t.leaves.flatten := by
  obtain ⟨before, hleaves⟩ := h.leaves_eq
  rw [hleaves, List.flatten_append, List.flatten_cons, remaining]
  exact ((List.drop_sublist _ _).append (List.Sublist.refl _)).trans
    (List.sublist_append_right _ _)

theorem repeated_subset {o : PageObject} (h : o ∈ t.repeated) : o ∈ t.leaves.flatten := by
  unfold repeated at h
  split at h
  · cases h
  · split at h
    · cases h
    · have hlast := List.mem_of_mem_drop h
      cases hleaves : t.leaves.getLast? with
      | none => simp [List.getLastD_eq_getLast?, hleaves] at hlast
      | some last =>
          rw [List.getLastD_eq_getLast?, hleaves] at hlast
          exact List.mem_flatten.mpr ⟨last, List.mem_of_getLast? hleaves, hlast⟩

/-- Nothing is given after an object that is above the range. -/
theorem AtLeaf.pairwise_given (ht : IsStored t) {iter : PageIterator}
    {rest : List (List PageObject)} (h : AtLeaf t iter rest) (max : Bytes) :
    ((iter.remaining rest).map (given t max)).Pairwise fun result result' =>
      result = none → result' = none := by
  have hsublist := h.remaining_sublist
  rw [List.pairwise_map]
  refine (ht.sorted.sublist hsublist).imp_of_mem fun {a b} ha hb hab hnone => ?_
  rw [given_eq_none ht (hsublist.subset ha)] at hnone
  rw [given_eq_none ht (hsublist.subset hb)]
  exact hnone.trans_le hab

/-- The results of all calls: those for the objects of the range, and then those for objects of
the last leaf again. -/
theorem exists_results (ht : IsStored t) (hpages : t.pages ≠ []) (min max : Bytes) :
    ∃ first : List (Option PageObject),
      (first.Pairwise fun result result' => result = none → result' = none) ∧
      (∀ n, ∃ iter, Calls t (new min max)
        (padded (first ++ none :: t.repeated.map (given t max)) n) iter) ∧
      ∀ results iter, Calls t (new min max) results iter →
        results = padded (first ++ none :: t.repeated.map (given t max)) results.length := by
  obtain ⟨iter, rest, hstart, rfl, hleaf⟩ := exists_start ht.tree min max
  have hready : Ready t iter _ := .leaf hleaf
  have hnew := next_new hstart hready.path_ne hpages
  refine ⟨_, hleaf.pairwise_given ht iter.max, fun n => ?_, fun results iter' hcalls => ?_⟩
  · cases n with
    | zero => exact ⟨_, .nil _⟩
    | succ n =>
        obtain ⟨fuel, iter1, hnext, hready1⟩ := exists_next hpages hready
        obtain ⟨iter', hcalls⟩ := hready1.exists_calls hpages n
        exact ⟨iter', .cons ((hnew fuel).trans hnext) hcalls⟩
  · cases hcalls with
    | nil => rfl
    | @cons _ _ _ fuel result results hnext hcalls =>
        rw [hnew] at hnext
        exact hready.eq_padded hpages (.cons hnext hcalls)

theorem next_of_empty (hpages : t.pages = []) (fuel : Nat) (iter : PageIterator) :
    next t fuel iter = some (none, iter) := by
  rw [next, if_pos (by simp [hpages])]

theorem calls_of_empty (hpages : t.pages = []) {iter iter' : PageIterator}
    {results : List (Option PageObject)} (h : Calls t iter results iter') :
    ∀ result ∈ results, result = none := by
  induction h with
  | nil => simp
  | cons hnext _ ih =>
      rw [next_of_empty hpages] at hnext
      cases hnext
      simpa using ih

theorem fused_of_empty (hpages : t.pages = []) (min max : Bytes) : Fused t min max := by
  refine ⟨fun n => ⟨List.replicate n none, new min max, by simp, ?_⟩, fun results iter hcalls =>
    List.pairwise_of_forall_mem_list fun _ _ result hresult _ =>
      calls_of_empty hpages hcalls result hresult⟩
  induction n with
  | zero => exact .nil _
  | succ n ih => exact .cons (next_of_empty hpages 0 _) ih

/-- Nothing is given after the end if and only if the objects of the last leaf, from the position
on that is the number of pointers of the root, are above the range. -/
theorem fused_iff (ht : t.pages = [] ∨ IsStored t) (min max : Bytes) :
    Fused t min max ↔ ∀ o ∈ t.repeated, max < o.key := by
  by_cases hpages : t.pages = []
  · have hnone : t.repeated = [] := by simp [repeated, hpages]
    simp [fused_of_empty hpages, hnone]
  have ht := ht.resolve_left hpages
  obtain ⟨first, hfirst, hexists, hunique⟩ := exists_results ht hpages min max
  refine ⟨fun h o ho => ?_, fun h => ?_⟩
  · obtain ⟨iter, hcalls⟩ := hexists (first ++ none :: t.repeated.map (given t max)).length
    rw [padded_length] at hcalls
    have hagain := (List.pairwise_append.mp (h.fused _ _ hcalls)).2.1
    rw [← given_eq_none ht (repeated_subset ho)]
    exact (List.pairwise_cons.mp hagain).1 _ (List.mem_map_of_mem ho) rfl
  · have hnone : ∀ result ∈ none :: t.repeated.map (given t max), result = none := by
      intro result hresult
      obtain rfl | hresult := List.mem_cons.mp hresult
      · rfl
      · obtain ⟨o, ho, rfl⟩ := List.mem_map.mp hresult
        exact (given_eq_none ht (repeated_subset ho)).mpr (h o ho)
    have hall := List.pairwise_append.mpr ⟨hfirst,
      List.pairwise_of_forall_mem_list fun _ _ result hresult _ => hnone result hresult,
      fun _ _ result hresult _ => hnone result hresult⟩
    refine ⟨fun n => ?_, fun results iter hcalls => ?_⟩
    · obtain ⟨iter, hcalls⟩ := hexists n
      exact ⟨_, iter, length_padded _ n, hcalls⟩
    · rw [hunique results iter hcalls]
      exact pairwise_padded _ hall

def smallObject (key : UInt8) : PageObject := .new [key] 0 0 []

/-- A root with the leaves `1` and `2, 3, 4`. -/
def twoLeaves : Btree ⟨256, by decide⟩ :=
  ⟨[⟨.leaf, [smallObject 1], by decide⟩,
    ⟨.leaf, [smallObject 2, smallObject 3, smallObject 4], by decide⟩,
    ⟨.notLeaf, [pointer [1] 0, pointer [2] 1], by decide⟩], 2, []⟩

theorem leaves_twoLeaves : twoLeaves.leaves =
    [[smallObject 1], [smallObject 2, smallObject 3, smallObject 4]] := by
  rfl

theorem isStored_twoLeaves : IsStored twoLeaves where
  tree := by
    have hheight : maxPages = (maxPages - 2) + 1 + 1 := rfl
    rw [hheight]
    refine ⟨_, rfl, fun _ => ⟨by decide, fun o ho => ?_⟩⟩
    obtain rfl | ho := List.mem_cons.mp ho
    · exact ⟨_, rfl, fun h => by cases h⟩
    · obtain rfl := List.mem_singleton.mp ho
      exact ⟨_, rfl, fun h => by cases h⟩
  sorted := by
    rw [leaves_twoLeaves]
    decide
  blobs o ho hblob := by
    rw [leaves_twoLeaves] at ho
    have hnone : ∀ o ∈ [[smallObject 1], [smallObject 2, smallObject 3, smallObject 4]].flatten,
        o.isBlobRef = false := by decide
    rw [hnone o ho] at hblob
    cases hblob

/-- The objects up to `3` are given once. -/
theorem fused_twoLeaves : Fused twoLeaves [1] [3] :=
  (fused_iff (.inr isStored_twoLeaves) [1] [3]).mpr (by decide)

/-- `4` is given again after the end. -/
theorem not_fused_twoLeaves :
    calls twoLeaves 1 6 (new [1] [4]) = some [some (smallObject 1), some (smallObject 2),
      some (smallObject 3), some (smallObject 4), none, some (smallObject 4)] ∧
    ¬Fused twoLeaves [1] [4] := by
  have hcalls : calls twoLeaves 1 6 (new [1] [4]) = some [some (smallObject 1),
      some (smallObject 2), some (smallObject 3), some (smallObject 4), none,
      some (smallObject 4)] := by
    decide +kernel
  refine ⟨hcalls, fun h => ?_⟩
  obtain ⟨iter, hrun⟩ := exists_calls_of_eq hcalls
  have hpairwise := h.fused _ _ hrun
  revert hpairwise
  decide

end PageIterator

end Vsql
