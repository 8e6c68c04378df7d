import Vsql.Patterns.Regular

/-!
# The positions that a match can end at

A node of a regular expression is evaluated from all of the positions that a match of it can
start at, to all of those that it can end at.  These are the positions that the words of its
language lead to.
-/

namespace Vsql

open Foundation Foundation.Padded

/-! ## Evaluation -/

/-- Where a character before position `n` can lead to. -/
def characterEndsBefore (s : Text) (p : Char → Bool) (starts : List Bool) (n : Nat) : List Bool :=
  (List.range n).foldl
    (fun ends i => if starts[i]? = some true ∧ s[i]?.any p then ends.set (i + 1) true else ends)
    (List.replicate starts.length false)

/-- The ends of a node that matches one character. -/
def characterEnds (s : Text) (p : Char → Bool) (starts : List Bool) : List Bool :=
  let ends := characterEndsBefore s p starts s.length
  if starts[s.length]? = some true ∧ p ' ' then ends.set s.length true else ends

/-- Every position from the first one that a match can start at. -/
def percentEnds (starts : List Bool) : List Bool :=
  match starts.idxOf? true with
  | some i => List.replicate i false ++ List.replicate (starts.length - i) true
  | none => List.replicate starts.length false

def unionEnds (ends childEnds : List Bool) : List Bool := List.zipWith (· || ·) ends childEnds

section

variable (f : List Bool → Option (List Bool))

def repeatMin : Nat → List Bool → Option (List Bool)
  | 0, current => some current
  | k + 1, current => do
      let next ← f current
      if next = current then some current else repeatMin k next

/-- The repeats after the ones that there must be, unless there are more than `fuel` of them. -/
def repeatMore (max : Option Nat) : Nat → Nat → List Bool → List Bool → Option (List Bool)
  | 0, _, _, _ => none
  | fuel + 1, repeats, current, ends =>
      if max.any (· ≤ repeats) then some ends
      else do
        let next ← f current
        if next = current ∨ true ∉ next then some ends
        else repeatMore max fuel (repeats + 1) next (unionEnds ends next)

end

namespace RegularNode

variable (fuel : Nat) (s : Text)

mutual

def ends : RegularNode → List Bool → Option (List Bool)
  | .character c, starts => some (characterEnds s (matchesCharacter · (.character c)) starts)
  | .any, starts => some (characterEnds s (matchesCharacter · .any) starts)
  | .set cs, starts => some (characterEnds s (matchesCharacter · (.set cs)) starts)
  | .percent, starts => some (percentEnds starts)
  | .sequence children, starts => endsOfSequence children starts
  | .alternation children, starts =>
      endsOfAlternation children starts (List.replicate starts.length false)
  | .repeated child min max _, starts => do
      let current ← repeatMin (ends child) min starts
      repeatMore (ends child) max fuel min current current

def endsOfSequence : List RegularNode → List Bool → Option (List Bool)
  | [], starts => some starts
  | child :: children, starts => do
      let ends ← ends child starts
      endsOfSequence children ends

def endsOfAlternation : List RegularNode → List Bool → List Bool → Option (List Bool)
  | [], _, unionOfEnds => some unionOfEnds
  | child :: children, starts, unionOfEnds => do
      let childEnds ← ends child starts
      endsOfAlternation children starts (unionEnds unionOfEnds childEnds)

end

/-- Whether the string matches, unless a repetition has not ended after `fuel` rounds. -/
def matchesString (n : RegularNode) : Option Bool := do
  let chars := s.rdropWhile (· = ' ')
  let ends ← ends fuel chars n (true :: List.replicate chars.length false)
  ends[chars.length]?

end RegularNode

/-! ## Positions -/

/-- The positions that are true. -/
def positions (bs : List Bool) : Set Nat := {i | bs[i]? = some true}

theorem mem_positions {bs : List Bool} {i : Nat} : i ∈ positions bs ↔ bs[i]? = some true := Iff.rfl

theorem lt_length_of_mem_positions {bs : List Bool} {i : Nat} (h : i ∈ positions bs) :
    i < bs.length := (List.getElem?_eq_some_iff.mp h).1

theorem positions_injective {as bs : List Bool} (hlength : as.length = bs.length)
    (h : positions as = positions bs) : as = bs := by
  apply List.ext_getElem hlength
  intro i hi hi'
  have hmem := Set.ext_iff.mp h i
  rw [mem_positions, mem_positions, List.getElem?_eq_getElem hi, List.getElem?_eq_getElem hi',
    Option.some.injEq, Option.some.injEq] at hmem
  exact Bool.eq_iff_iff.mpr hmem

theorem positions_replicate_false (n : Nat) : positions (List.replicate n false) = ∅ := by
  ext i
  simp [mem_positions, List.getElem?_replicate]

theorem positions_eq_empty_iff {bs : List Bool} : positions bs = ∅ ↔ true ∉ bs := by
  rw [Set.eq_empty_iff_forall_notMem, List.mem_iff_getElem?, not_exists]
  rfl

theorem positions_set {bs : List Bool} {i : Nat} (hi : i < bs.length) :
    positions (bs.set i true) = insert i (positions bs) := by
  ext j
  rw [Set.mem_insert_iff, mem_positions, mem_positions, List.getElem?_set]
  by_cases hij : i = j
  · simp [hij, hij ▸ hi]
  · simp [hij, Ne.symm hij]

theorem length_unionEnds {as bs : List Bool} (h : as.length = bs.length) :
    (unionEnds as bs).length = as.length := by
  simp [unionEnds, h]

theorem positions_unionEnds {as bs : List Bool} (h : as.length = bs.length) :
    positions (unionEnds as bs) = positions as ∪ positions bs := by
  ext i
  rw [Set.mem_union, mem_positions, mem_positions, mem_positions, unionEnds,
    List.getElem?_zipWith]
  by_cases hi : i < as.length
  · simp [List.getElem?_eq_getElem hi, List.getElem?_eq_getElem (h ▸ hi)]
  · simp [List.getElem?_eq_none (not_lt.mp hi), List.getElem?_eq_none (h ▸ not_lt.mp hi)]

/-! ## One character -/

variable {s : Text} {starts : List Bool}

/-- The evaluation ends, at the positions that the language leads to. -/
def Computes (s : Text) (L : Language Char) (f : List Bool → Option (List Bool)) : Prop :=
  ∀ starts, starts.length = s.length + 1 → ∃ ends, f starts = some ends ∧
    ends.length = s.length + 1 ∧ positions ends = reach ' ' s L (positions starts)

theorem leads_characters {p : Char → Bool} {i j : Nat} :
    Leads ' ' s (RegularNode.characters p) i j ↔
      (∃ c, s[i]? = some c ∧ p c = true ∧ j = i + 1) ∨
        i = s.length ∧ p ' ' = true ∧ j = s.length := by
  constructor
  · rintro ⟨hi, _, ⟨c, hc, rfl⟩, hread⟩
    simp only [readFrom, readChar, Option.bind_eq_some_iff, Option.some.injEq] at hread
    obtain ⟨m, hm, rfl⟩ := hread
    split at hm
    · next d hd =>
        split_ifs at hm with hdc
        cases hm
        exact .inl ⟨d, hd, by rw [hdc]; exact hc, rfl⟩
    · next hnone =>
        split_ifs at hm with hpad
        cases hm
        have hlength := le_antisymm hi (List.getElem?_eq_none_iff.mp hnone)
        exact .inr ⟨hlength, hpad ▸ hc, hlength⟩
  · rintro (⟨c, hc, hp, rfl⟩ | ⟨rfl, hp, rfl⟩)
    · have hi := (List.getElem?_eq_some_iff.mp hc).1
      exact ⟨hi.le, [c], ⟨c, hp, rfl⟩, by simp [readFrom, readChar, hc]⟩
    · exact ⟨le_rfl, [' '], ⟨' ', hp, rfl⟩, by simp [readFrom, readChar]⟩

variable {p : Char → Bool}

theorem length_characterEndsBefore (s : Text) (p : Char → Bool) (starts : List Bool) (n : Nat) :
    (characterEndsBefore s p starts n).length = starts.length := by
  unfold characterEndsBefore
  induction n with
  | zero => simp
  | succ n ih =>
      rw [List.range_succ, List.foldl_append, List.foldl_cons, List.foldl_nil]
      split_ifs
      · rw [List.length_set, ih]
      · exact ih

theorem positions_characterEndsBefore (hlength : starts.length = s.length + 1) {n : Nat}
    (hn : n ≤ s.length) : positions (characterEndsBefore s p starts n) =
      {j | ∃ i < n, i ∈ positions starts ∧ s[i]?.any p = true ∧ j = i + 1} := by
  induction n with
  | zero => simp [characterEndsBefore, positions_replicate_false]
  | succ n ih =>
      have hlen := length_characterEndsBefore s p starts n
      have hbefore := ih (by omega)
      have hsucc : characterEndsBefore s p starts (n + 1) =
          if starts[n]? = some true ∧ s[n]?.any p
          then (characterEndsBefore s p starts n).set (n + 1) true
          else characterEndsBefore s p starts n := by
        simp only [characterEndsBefore, List.range_succ, List.foldl_append, List.foldl_cons,
          List.foldl_nil]
      rw [hsucc]
      ext j
      split_ifs with hcond
      · rw [positions_set (by omega), hbefore]
        simp only [Set.mem_insert_iff, Set.mem_ofPred_eq]
        constructor
        · rintro (rfl | ⟨i, hi, h⟩)
          · exact ⟨n, Nat.lt_succ_self n, hcond.1, hcond.2, rfl⟩
          · exact ⟨i, by omega, h⟩
        · rintro ⟨i, hi, h, hany, rfl⟩
          obtain rfl | hlt := (Nat.lt_succ_iff.mp hi).eq_or_lt
          · exact .inl rfl
          · exact .inr ⟨i, hlt, h, hany, rfl⟩
      · rw [hbefore]
        simp only [Set.mem_ofPred_eq]
        constructor
        · rintro ⟨i, hi, h⟩
          exact ⟨i, by omega, h⟩
        · rintro ⟨i, hi, h, hany, rfl⟩
          obtain rfl | hlt := (Nat.lt_succ_iff.mp hi).eq_or_lt
          · exact absurd ⟨h, hany⟩ hcond
          · exact ⟨i, hlt, h, hany, rfl⟩

theorem mem_positions_characterEnds (hlength : starts.length = s.length + 1) {j : Nat} :
    j ∈ positions (characterEnds s p starts) ↔
      (∃ i < s.length, i ∈ positions starts ∧ s[i]?.any p = true ∧ j = i + 1) ∨
        s.length ∈ positions starts ∧ p ' ' = true ∧ j = s.length := by
  have hlen := length_characterEndsBefore s p starts s.length
  have hbefore := Set.ext_iff.mp (positions_characterEndsBefore (p := p) hlength le_rfl) j
  unfold characterEnds
  split_ifs with hend
  · rw [positions_set (by omega), Set.mem_insert_iff, hbefore, or_comm]
    apply or_congr_right
    simp [mem_positions, hend]
  · rw [hbefore]
    constructor
    · exact .inl
    · rintro (h | ⟨hmem, hp, -⟩)
      · exact h
      · exact absurd ⟨hmem, hp⟩ hend

theorem computes_characters (p : Char → Bool) :
    Computes s (RegularNode.characters p) fun starts => some (characterEnds s p starts) := by
  intro starts hlength
  refine ⟨_, rfl, ?_, ?_⟩
  · unfold characterEnds
    split_ifs
    · rw [List.length_set, length_characterEndsBefore, hlength]
    · rw [length_characterEndsBefore, hlength]
  · ext j
    rw [mem_positions_characterEnds hlength]
    simp only [mem_reach, leads_characters, Option.any_eq_true]
    constructor
    · rintro (⟨i, -, hi, ⟨c, hc, hp⟩, rfl⟩ | ⟨hend, hp, rfl⟩)
      · exact ⟨i, hi, .inl ⟨c, hc, hp, rfl⟩⟩
      · exact ⟨_, hend, .inr ⟨rfl, hp, rfl⟩⟩
    · rintro ⟨i, hi, ⟨c, hc, hp, rfl⟩ | ⟨rfl, hp, rfl⟩⟩
      · exact .inl ⟨i, (List.getElem?_eq_some_iff.mp hc).1, hi, ⟨c, hc, hp⟩, rfl⟩
      · exact .inr ⟨hi, hp, rfl⟩

/-! ## Any characters -/

theorem readFrom_drop_take {i : Nat} (n : Nat) (h : i + n ≤ s.length) :
    readFrom ' ' s i ((s.drop i).take n) = some (i + n) := by
  induction n generalizing i with
  | zero => rfl
  | succ n ih =>
      have hi : i < s.length := by omega
      rw [List.drop_eq_getElem_cons hi, List.take_succ_cons]
      simp only [readFrom, readChar, List.getElem?_eq_getElem hi, if_true, Option.bind_some]
      rw [ih (by omega), Nat.add_right_comm, Nat.add_assoc]

theorem leads_top {i j : Nat} : Leads ' ' s ⊤ i j ↔ i ≤ j ∧ j ≤ s.length := by
  constructor
  · exact Leads.bounds
  · rintro ⟨hij, hj⟩
    have hread := readFrom_drop_take (s := s) (i := i) (j - i) (by omega)
    rw [Nat.add_sub_cancel' hij] at hread
    exact ⟨hij.trans hj, _, trivial, hread⟩

theorem positions_percentEnds : positions (percentEnds starts) =
    {j | j < starts.length ∧ ∃ i ∈ positions starts, i ≤ j} := by
  unfold percentEnds
  split
  · next i hi =>
      obtain ⟨hlt, hget, hbefore⟩ := List.idxOf?_eq_some_iff.mp hi
      have hfirst : ∀ k ∈ positions starts, i ≤ k := by
        intro k hk
        by_contra! hki
        exact hbefore k hki (List.getElem?_eq_some_iff.mp hk).2
      have hmem : i ∈ positions starts := List.getElem?_eq_some_iff.mpr ⟨hlt, hget⟩
      ext j
      rw [mem_positions, List.getElem?_append, List.length_replicate]
      split_ifs with hj
      · simp only [List.getElem?_replicate, hj, if_true, Option.some.injEq, Bool.false_eq_true,
          Set.mem_ofPred_eq, false_iff, not_and, not_exists]
        intro _ k hk hkj
        have hik := hfirst k hk
        omega
      · simp only [List.getElem?_replicate, Set.mem_ofPred_eq]
        split_ifs with hjlen
        · exact iff_of_true rfl ⟨by omega, i, hmem, by omega⟩
        · refine iff_of_false (by simp) ?_
          rintro ⟨hlt', -⟩
          omega
  · next hnone =>
      have hempty : positions starts = ∅ := positions_eq_empty_iff.mpr (by simpa using hnone)
      rw [positions_replicate_false, hempty]
      simp

theorem computes_percent : Computes s ⊤ fun starts => some (percentEnds starts) := by
  intro starts hlength
  refine ⟨_, rfl, ?_, ?_⟩
  · unfold percentEnds
    split
    · next i hi =>
        have hlt := (List.idxOf?_eq_some_iff.mp hi).1
        simp only [List.length_append, List.length_replicate]
        omega
    · rw [List.length_replicate, hlength]
  · rw [positions_percentEnds, hlength]
    ext j
    simp only [Set.mem_ofPred_eq, mem_reach, leads_top]
    constructor
    · rintro ⟨hj, i, hi, hij⟩
      exact ⟨i, hi, hij, by omega⟩
    · rintro ⟨i, hi, hij, hj⟩
      exact ⟨by omega, i, hi, hij⟩

/-! ## Repeats -/

variable {L : Language Char} {f : List Bool → Option (List Bool)}

theorem le_of_mem_positions (hlength : starts.length = s.length + 1) :
    ∀ i ∈ positions starts, i ≤ s.length := by
  intro i hi
  have hlt := lt_length_of_mem_positions hi
  omega

theorem Computes.repeatMin (hf : Computes s L f) (k : Nat) :
    Computes s (L ^ k) (repeatMin f k) := by
  induction k with
  | zero =>
      intro starts hlength
      exact ⟨starts, rfl, hlength, (reach_one (le_of_mem_positions hlength)).symm⟩
  | succ k ih =>
      intro starts hlength
      obtain ⟨next, hnext, hlen, hpositions⟩ := hf starts hlength
      simp only [Vsql.repeatMin, hnext, Option.bind_eq_bind, Option.bind_some]
      split_ifs with hfixed
      · subst hfixed
        refine ⟨next, rfl, hlen, ?_⟩
        rw [reach_pow L (le_of_mem_positions hlen), Function.iterate_fixed hpositions.symm]
      · obtain ⟨ends, hends, hlenEnds, hreach⟩ := ih next hlen
        refine ⟨ends, hends, hlenEnds, ?_⟩
        rw [hreach, hpositions, pow_succ', reach_mul]

theorem reach_iterate_empty (L : Language Char) (k : Nat) :
    (reach ' ' s L)^[k] ∅ = ∅ := Function.iterate_fixed (reach_empty L) k

/-- The loop ends, with the positions of all of the repeats that there can be. -/
theorem Computes.exists_repeatMore (hf : Computes s L f) {max : Option Nat} {S : Set Nat}
    {fuel repeats : Nat} {current ends : List Bool} (hcurrent : current.length = s.length + 1)
    (hpositions : positions current = (reach ' ' s L)^[repeats] S)
    (hends : ends.length = s.length + 1) (hsubset : positions current ⊆ positions ends)
    (hfuel : s.length + 1 < repeats + fuel) (hpos : 0 < fuel) :
    ∃ result, repeatMore f max fuel repeats current ends = some result ∧
      result.length = s.length + 1 ∧ positions result = positions ends ∪
        {j | ∃ k, (repeats < k ∧ ∀ m ∈ max, k ≤ m) ∧ j ∈ (reach ' ' s L)^[k] S} := by
  induction fuel generalizing repeats current ends with
  | zero => omega
  | succ fuel ih =>
      obtain ⟨next, hnext, hlen, hreach⟩ := hf current hcurrent
      rw [hpositions, ← Function.iterate_succ_apply' (reach ' ' s L)] at hreach
      simp only [repeatMore, hnext, Option.bind_eq_bind, Option.bind_some]
      split_ifs with hmax hlast
      · refine ⟨ends, rfl, hends, (Set.union_eq_self_of_subset_right ?_).symm⟩
        rintro j ⟨k, ⟨hk, hle⟩, -⟩
        obtain ⟨m, hm, hrepeats⟩ := (Option.any_eq_true _ _).mp hmax
        have hkm := hle m hm
        simp only [decide_eq_true_eq] at hrepeats
        omega
      · refine ⟨ends, rfl, hends, (Set.union_eq_self_of_subset_right ?_).symm⟩
        rintro j ⟨k, ⟨hk, -⟩, hj⟩
        obtain hfixed | hnone := hlast
        · rw [hfixed, hpositions, Function.iterate_succ_apply'] at hreach
          rw [iterate_eq_of_fixed hreach.symm hk.le, ← hpositions] at hj
          exact hsubset hj
        · rw [positions_eq_empty_iff.mpr hnone] at hreach
          rw [show k = k - (repeats + 1) + (repeats + 1) by omega,
            Function.iterate_add_apply, ← hreach, reach_iterate_empty] at hj
          exact absurd hj (Set.notMem_empty j)
      · have hrepeats : repeats ≤ s.length := by
          by_contra! hlt
          refine hlast (.inl (positions_injective (hlen.trans hcurrent.symm) ?_))
          rw [hreach, hpositions, reach_iterate_succ L hlt]
        have hunion := positions_unionEnds (hends.trans hlen.symm)
        obtain ⟨result, hresult, hlenResult, hall⟩ := ih hlen hreach
          ((length_unionEnds (hends.trans hlen.symm)).trans hends)
          (hunion ▸ Set.subset_union_right) (by omega) (by omega)
        refine ⟨result, hresult, hlenResult, ?_⟩
        rw [hall, hunion, Set.union_assoc, hreach]
        congr 1
        ext j
        simp only [Set.mem_union, Set.mem_ofPred_eq]
        constructor
        · rintro (hj | ⟨k, ⟨hk, hle⟩, hj⟩)
          · refine ⟨repeats + 1, ⟨Nat.lt_succ_self _, fun m hm => ?_⟩, hj⟩
            by_contra! hlt
            exact hmax ((Option.any_eq_true _ _).mpr ⟨m, hm, decide_eq_true (by omega)⟩)
          · exact ⟨k, ⟨by omega, hle⟩, hj⟩
        · rintro ⟨k, ⟨hk, hle⟩, hj⟩
          obtain rfl | hlt := (Nat.succ_le_of_lt hk).eq_or_lt
          · exact .inl hj
          · exact .inr ⟨k, ⟨hlt, hle⟩, hj⟩

theorem Computes.repeated (hf : Computes s L f) {min : Nat} {max : Option Nat}
    (hmax : ∀ m ∈ max, min ≤ m) {fuel : Nat} (hfuel : s.length + 1 < fuel) :
    Computes s (RegularNode.powers L min max) fun starts =>
      Vsql.repeatMin f min starts >>= fun current =>
        repeatMore f max fuel min current current := by
  intro starts hlength
  obtain ⟨current, hcurrent, hlen, hreach⟩ := hf.repeatMin min starts hlength
  rw [reach_pow L (le_of_mem_positions hlength)] at hreach
  have hbound : s.length + 1 < min + fuel := by omega
  obtain ⟨result, hresult, hlenResult, hall⟩ := @Computes.exists_repeatMore _ _ _ hf max _ _ _ _ _
    hlen hreach hlen subset_rfl hbound (by omega)
  refine ⟨result, by simp only [hcurrent, Option.bind_eq_bind, Option.bind_some, hresult],
    hlenResult, ?_⟩
  rw [hall, hreach]
  ext j
  rw [RegularNode.powers, mem_reach_powers]
  simp only [reach_pow L (le_of_mem_positions hlength), Set.mem_union, Set.mem_ofPred_eq]
  constructor
  · rintro (hj | ⟨k, ⟨hk, hle⟩, hj⟩)
    · exact ⟨min, ⟨le_rfl, hmax⟩, hj⟩
    · exact ⟨k, ⟨hk.le, hle⟩, hj⟩
  · rintro ⟨k, ⟨hk, hle⟩, hj⟩
    obtain rfl | hlt := hk.eq_or_lt
    · exact .inl hj
    · exact .inr ⟨k, ⟨hlt, hle⟩, hj⟩

/-! ## Nodes -/

namespace RegularNode

variable {fuel : Nat}

mutual

theorem computes_ends (hfuel : s.length + 1 < fuel) :
    (n : RegularNode) → Computes s n.language (ends fuel s n)
  | .character c => computes_characters fun ch => ch == c
  | .any => computes_characters fun _ => true
  | .set cs => computes_characters cs.contains
  | .percent => computes_percent
  | .sequence children => computes_endsOfSequence hfuel children
  | .alternation children => by
      intro starts hlength
      obtain ⟨result, hresult, hlen, hpositions⟩ := computes_endsOfAlternation hfuel children starts
        (List.replicate starts.length false) hlength (by rw [List.length_replicate, hlength])
      refine ⟨result, hresult, hlen, ?_⟩
      rw [hpositions, positions_replicate_false, Set.empty_union]
      rfl
  | .repeated child _ _ h => (computes_ends hfuel child).repeated h hfuel

theorem computes_endsOfSequence (hfuel : s.length + 1 < fuel) : (children : List RegularNode) →
    Computes s (languageOfSequence children) (endsOfSequence fuel s children)
  | [] => fun starts hlength =>
      ⟨starts, rfl, hlength, (reach_one (le_of_mem_positions hlength)).symm⟩
  | child :: children => by
      intro starts hlength
      obtain ⟨ends, hends, hlen, hpositions⟩ := computes_ends hfuel child starts hlength
      obtain ⟨result, hresult, hlenResult, hreach⟩ :=
        computes_endsOfSequence hfuel children ends hlen
      refine ⟨result, ?_, hlenResult, ?_⟩
      · simp only [endsOfSequence, hends, Option.bind_eq_bind, Option.bind_some, hresult]
      · rw [hreach, hpositions, languageOfSequence, reach_mul]

theorem computes_endsOfAlternation (hfuel : s.length + 1 < fuel) :
    (children : List RegularNode) → ∀ starts unionOfEnds, starts.length = s.length + 1 →
      unionOfEnds.length = s.length + 1 → ∃ ends,
        endsOfAlternation fuel s children starts unionOfEnds = some ends ∧
        ends.length = s.length + 1 ∧ positions ends = positions unionOfEnds ∪
          reach ' ' s (languageOfAlternation children) (positions starts)
  | [] => by
      intro starts unionOfEnds hlength hunion
      refine ⟨unionOfEnds, rfl, hunion, ?_⟩
      ext j
      simp [languageOfAlternation, mem_reach, Leads]
  | child :: children => by
      intro starts unionOfEnds hlength hunion
      obtain ⟨ends, hends, hlen, hpositions⟩ := computes_ends hfuel child starts hlength
      obtain ⟨result, hresult, hlenResult, hreach⟩ := computes_endsOfAlternation hfuel children
        starts (unionEnds unionOfEnds ends) hlength
        ((length_unionEnds (hunion.trans hlen.symm)).trans hunion)
      refine ⟨result, ?_, hlenResult, ?_⟩
      · simp only [endsOfAlternation, hends, Option.bind_eq_bind, Option.bind_some, hresult]
      · rw [hreach, positions_unionEnds (hunion.trans hlen.symm), hpositions,
          languageOfAlternation, reach_add, Set.union_assoc]

end

/-- The evaluation ends, and is true when a string of the language is equal to the string but
for trailing spaces. -/
theorem exists_matchesString (n : RegularNode) (s : Text) {fuel : Nat}
    (hfuel : (s.rdropWhile (· = ' ')).length + 1 < fuel) : ∃ result,
      n.matchesString fuel s = some result ∧ (result = true ↔
        ∃ w ∈ n.language, w.rdropWhile (· = ' ') = s.rdropWhile (· = ' ')) := by
  obtain ⟨ends, hends, hlen, hpositions⟩ := computes_ends hfuel n
    (true :: List.replicate (s.rdropWhile (· = ' ')).length false) (by simp)
  have hstart : positions (true :: List.replicate (s.rdropWhile (· = ' ')).length false) = {0} := by
    ext i
    cases i <;> simp [mem_positions, List.getElem?_replicate]
  rw [hstart] at hpositions
  have hlt : (s.rdropWhile (· = ' ')).length < ends.length := by omega
  refine ⟨ends[(s.rdropWhile (· = ' ')).length], ?_, ?_⟩
  · simp only [matchesString, hends, Option.bind_eq_bind, Option.bind_some,
      List.getElem?_eq_getElem hlt]
  · have hmem : ends[(s.rdropWhile (· = ' ')).length] = true ↔
        (s.rdropWhile (· = ' ')).length ∈ positions ends := by
      rw [mem_positions, List.getElem?_eq_getElem hlt, Option.some.injEq]
    rw [hmem, hpositions, mem_reach_length]
    simp only [rdropWhile_eq_iff]

end RegularNode

end Vsql
