import Vsql.Unicode.Composition

/-!
# Normalization Form C

A string is decomposed, put in order and composed.  Two strings have the same form if and only
if they are canonically equivalent, and the form of a form is itself.  A string of code points
below U+0300 is its own form, so it is returned as it is.
-/

namespace Vsql.Unicode

open Foundation

section

variable (tables : UnicodeTables)

/-- The full canonical decomposition of a string in canonical order, if the fuel is enough. -/
def canonicalDecomposition (fuel : Nat) (s : List Nat) : Option (List Nat) :=
  (s.mapM (decomposeCanonical tables fuel)).map fun runes =>
    reorderCanonical tables runes.flatten

/-- The bytes of a string. -/
def utf8Bytes (s : List Nat) : List UInt8 :=
  s.flatMap fun r => String.utf8EncodeChar (Char.ofNat r)

def normalizeNfc (fuel : Nat) (s : List Nat) : Option (List Nat) :=
  if (utf8Bytes s).all (· < 0xCC) then some s
  else (canonicalDecomposition tables fuel s).map (composeCanonical tables)

end

/-- A string of code points. -/
def ValidString (s : List Nat) : Prop := ∀ r ∈ s, r.isValidChar

/-- The result of a recursion, with any fuel that is enough for it. -/
def Ends {α : Type} (f : Nat → Option α) (result : α) : Prop :=
  ∃ n, ∀ fuel ≥ n, f fuel = some result

theorem Ends.map {α β : Type} {f : Nat → Option α} {a : α} (h : Ends f a) (g : α → β) :
    Ends (fun fuel => (f fuel).map g) (g a) := by
  obtain ⟨n, hn⟩ := h
  refine ⟨n, fun fuel hfuel => ?_⟩
  simp only [hn fuel hfuel, Option.map_some]

variable {tables : UnicodeTables}

namespace UnicodeTables.Stable

variable (h : tables.Stable)

/-! ## The decomposition of a string -/

/-- Normalization Form D. -/
def nfd (s : List Nat) : List Nat := reorderCanonical tables (s.flatMap h.full)

theorem mapM_decomposeCanonical_ends (s : List Nat) :
    Ends (fun fuel => s.mapM (decomposeCanonical tables fuel)) (s.map h.full) := by
  induction s with
  | nil => exact ⟨0, fun fuel _ => rfl⟩
  | cons r s ih =>
      obtain ⟨n1, h1⟩ := h.decomposeCanonical_ends r
      obtain ⟨n2, h2⟩ := ih
      refine ⟨max n1 n2, fun fuel hfuel => ?_⟩
      have hr := h1 fuel (by omega)
      have hs := h2 fuel (by omega)
      simp only at hs
      simp [List.mapM_cons, hr, hs]

theorem canonicalDecomposition_ends (s : List Nat) :
    Ends (fun fuel => canonicalDecomposition tables fuel s) (h.nfd s) := by
  have hparts := (h.mapM_decomposeCanonical_ends s).map fun runes =>
    reorderCanonical tables runes.flatten
  rw [← List.flatMap_def] at hparts
  exact hparts

theorem lt_of_isValidChar {r : Nat} (hr : r.isValidChar) : r < 2 ^ 21 := by
  unfold Nat.isValidChar at hr
  omega

theorem mem_nfd {s : List Nat} (hs : ValidString s) {r : Nat} (hr : r ∈ h.nfd s) :
    r.isValidChar ∧ h.full r = [r] := by
  rw [nfd, reorderCanonical_eq, (orderRuns_perm _).mem_iff, List.mem_flatMap] at hr
  obtain ⟨c, hc, hr⟩ := hr
  exact ⟨h.isValidChar_of_mem_full (hs c hc) hr, h.full_of_mem_full hr⟩

theorem runsOrdered_nfd (s : List Nat) :
    RunsOrdered (unicodeCombiningClass tables) (h.nfd s) := by
  rw [nfd, reorderCanonical_eq]
  exact runsOrdered_orderRuns _

theorem forall₂_decomposes {s : List Nat} {parts : List (List Nat)} :
    List.Forall₂ (Decomposes tables) s parts ↔ parts = s.map h.full := by
  have hparts := @List.forall₂_map_left_iff _ _ _ Eq h.full s parts
  rw [List.forall₂_eq_eq_eq] at hparts
  have hfull : Decomposes tables = fun r x => h.full r = x := by
    funext r x
    exact propext (h.decomposes_iff.trans eq_comm)
  rw [hfull, ← hparts, eq_comm]

/-- A string has one decomposition, which is the one that is computed. -/
theorem isCanonicalDecomposition_iff {s d : List Nat} :
    IsCanonicalDecomposition tables s d ↔ d = h.nfd s := by
  simp only [IsCanonicalDecomposition, h.forall₂_decomposes, exists_eq_left, isOrdering_iff]
  rw [nfd, reorderCanonical_eq, h.unicodeCombiningClass_eq, List.flatMap_def]

theorem canonicallyEquivalent_iff {a b : List Nat} :
    CanonicallyEquivalent tables a b ↔ h.nfd a = h.nfd b := by
  simp only [CanonicallyEquivalent, h.isCanonicalDecomposition_iff, exists_eq_left]

/-! ## The form of a string -/

/-- What the code computes without its fast path. -/
def nfc (s : List Nat) : List Nat := composeCanonical tables (h.nfd s)

theorem isValidChar_of_composite (h : tables.Stable) {a b c : Nat}
    (hc : PrimaryComposite tables a b c) : c.isValidChar := by
  obtain hhangul | ⟨-, -, -, mapping, hmapping, rfl, -⟩ := h.mapping_of_composite hc
  · have hs : IsHangulS c := isHangulS_iff_hangulComposite.mpr ⟨a, b, hhangul⟩
    exact .inl (hs.2.trans (by decide))
  · exact (h.codePoints mapping hmapping).1

theorem validString_composeStep (h : tables.Stable) {s : Composing} (hs : ValidString s.out)
    {r : Nat}
    (hr : r.isValidChar) : ValidString (composeStep tables s r).out := by
  unfold composeStep
  cases hcomposite : s.composite tables r with
  | none =>
      intro x hx
      obtain hx | hx := List.mem_append.mp hx
      · exact hs x hx
      · rw [List.mem_singleton.mp hx]
        exact hr
  | some pair =>
      intro x hx
      obtain hx | rfl := List.mem_or_eq_of_mem_set hx
      · exact hs x hx
      · unfold Composing.composite at hcomposite
        cases hstarter : s.starter with
        | none => simp [hstarter] at hcomposite
        | some starter =>
            rw [hstarter] at hcomposite
            simp only [Option.bind_eq_bind, Option.bind_some] at hcomposite
            split_ifs at hcomposite
            obtain ⟨c, hc, hpair⟩ := Option.bind_eq_some_iff.mp hcomposite
            cases hpair
            exact h.isValidChar_of_composite
              ((h.unicodeComposite_eq_some (lt_of_isValidChar hr)).mp hc)

theorem validString_composeCanonical (h : tables.Stable) {x : List Nat} (hx : ValidString x) :
    ValidString (composeCanonical tables x) := by
  have hloop : ∀ (x : List Nat) (s : Composing), ValidString x → ValidString s.out →
      ValidString (x.foldl (composeStep tables) s).out := by
    intro x
    induction x with
    | nil => exact fun s _ hs => hs
    | cons r x ih =>
        intro s hx hs
        exact ih _ (fun r' hr' => hx r' (List.mem_cons_of_mem r hr'))
          (h.validString_composeStep hs (hx r List.mem_cons_self))
  exact hloop x _ hx (by simp [ValidString])

theorem validString_nfc {s : List Nat} (hs : ValidString s) : ValidString (h.nfc s) :=
  h.validString_composeCanonical fun _ hr => (h.mem_nfd hs hr).1

/-- The form is canonically equivalent to the string. -/
theorem nfd_nfc {s : List Nat} (hs : ValidString s) : h.nfd (h.nfc s) = h.nfd s := by
  have hx : ∀ r ∈ h.nfd s, r < 2 ^ 21 ∧ h.full r = [r] := fun r hr =>
    (h.mem_nfd hs hr).imp lt_of_isValidChar id
  have horder := orderRuns_composeCanonical h hx (h.runsOrdered_nfd s)
  rw [nfd, reorderCanonical_eq]
  exact horder

theorem nfc_nfc {s : List Nat} (hs : ValidString s) : h.nfc (h.nfc s) = h.nfc s := by
  rw [nfc, h.nfd_nfc hs, nfc]

/-- Only canonically equivalent strings have the same form. -/
theorem nfc_eq_iff {a b : List Nat} (ha : ValidString a) (hb : ValidString b) :
    h.nfc a = h.nfc b ↔ h.nfd a = h.nfd b := by
  constructor
  · intro heq
    rw [← h.nfd_nfc ha, heq, h.nfd_nfc hb]
  · intro heq
    rw [nfc, heq, nfc]

/-! ## Below U+0300 -/

theorem class_low (h : tables.Stable) {r : Nat} (hr : r < 0x300) :
    unicodeCombiningClass tables r = 0 := by
  rw [h.unicodeCombiningClass_eq]
  by_contra hne
  obtain ⟨entry, hentry, rfl⟩ := classOf_ne_zero hne
  exact absurd (h.lowClasses entry hentry) (not_le.mpr hr)

/-- Nothing before it composes with a code point below U+0300. -/
theorem unicodeComposite_second_low (h : tables.Stable) (a : Nat) {r : Nat} (hr : r < 0x300) :
    unicodeComposite tables a r = none := by
  have hv : ¬IsHangulV r := by
    rw [isHangulV_iff]
    omega
  have ht : ¬IsHangulT r := by
    rw [isHangulT_iff]
    omega
  rw [unicodeComposite, if_neg fun hpair => hv hpair.2, if_neg fun hpair => ht hpair.2.2]
  cases hlookup : unicodeTableLookup tables.compositions (a <<< 21 ||| r) 21 with
  | none => rfl
  | some c =>
      obtain ⟨composition, hcomposition, hkey, -⟩ := unicodeTableLookup_some hlookup
      have hmiddle := ((compositionKey_eq (by omega)).mp hkey).2
      have hle := h.lowCompositions composition hcomposition
      omega

/-- The decomposition of a code point below U+0300 composes to it, whatever is before it. -/
structure ComposesBack (c first : Nat) (marks : List Nat) : Prop where
  full : h.full c = first :: marks
  low : first < 0x300
  ordered : RunsOrdered (unicodeCombiningClass tables) (first :: marks)
  back : ∀ (pre : List Nat) (lastClass : Nat),
    marks.foldl (composeStep tables) ⟨pre ++ [first], some pre.length, lastClass⟩ =
      ⟨pre ++ [c], some pre.length, lastClass⟩

/-- A code point that has a class is not decomposed further when it ends a mapping. -/
theorem full_low_second {entry : Nat} (hentry : entry ∈ tables.decompositions)
    (hlow : entryHigh entry < 0x300) : h.full (entryLow entry) = [entryLow entry] := by
  obtain ⟨-, hclass, -, hothers⟩ := h.lowDecompositions entry hentry hlow
  obtain ⟨mark, hmark, hkey⟩ := classOf_ne_zero hclass
  refine h.full_self ?_ fun other hother => (hothers other hother).1
  rw [← hkey]
  exact (h.starters mark hmark).1

theorem composesBack_self {c : Nat} (hc : c < 0x300) (hfull : h.full c = [c]) :
    h.ComposesBack c c [] :=
  ⟨hfull, hc, .singleton c, fun _ _ => rfl⟩

theorem ComposesBack.snoc {entry first : Nat} {marks : List Nat}
    (hentry : entry ∈ tables.decompositions) (hlow : entryHigh entry < 0x300)
    (hfirst : h.ComposesBack (entryMiddle entry) first marks)
    (hlast : ∀ last ∈ (first :: marks).getLast?,
      unicodeCombiningClass tables last ≤ unicodeCombiningClass tables (entryLow entry)) :
    h.ComposesBack (entryHigh entry) first (marks ++ [entryLow entry]) := by
  obtain ⟨hmiddle, hclass, -, -⟩ := h.lowDecompositions entry hentry hlow
  rw [← h.unicodeCombiningClass_eq] at hclass
  have hne : entryLow entry ≠ 0 := by
    intro hzero
    rw [hzero] at hclass
    exact hclass (h.class_low (by decide))
  have hnot : ¬IsHangulS (entryHigh entry) := by
    rw [isHangulS_iff]
    omega
  refine ⟨?_, hfirst.low, ?_, ?_⟩
  · rw [h.full_entry hentry hnot, hfirst.full, if_pos hne, h.full_low_second hentry hlow]
    rfl
  · rw [← List.cons_append]
    refine List.isChain_append.mpr ⟨hfirst.ordered, .singleton _, ?_⟩
    intro last hmem next hnext _
    cases hnext
    exact hlast last hmem
  · intro pre lastClass
    rw [List.foldl_append, hfirst.back, List.foldl_cons, List.foldl_nil]
    have hat : Composing.At tables
        ⟨pre ++ [entryMiddle entry], some pre.length, lastClass⟩ pre (entryMiddle entry) [] :=
      ⟨⟨rfl, h.class_low hmiddle, by simp⟩, rfl, by simp, .inl rfl⟩
    have hcomposite := h.unicodeComposite_low hentry hlow
    obtain ⟨-, c, hc, hstep⟩ | ⟨hblocked | hnone, -⟩ := composeStep_at hat (entryLow entry)
    · rw [hcomposite] at hc
      cases hc
      exact hstep
    · obtain ⟨b, hb, -⟩ := hblocked
      cases hb
    · rw [hcomposite] at hnone
      cases hnone

theorem exists_composesBack {c : Nat} (hc : c < 0x300) :
    ∃ first marks, h.ComposesBack c first marks := by
  suffices hlast : ∃ first marks, h.ComposesBack c first marks ∧
      ∀ last ∈ (first :: marks).getLast?, unicodeCombiningClass tables last = 0 ∨
        ∃ entry ∈ tables.decompositions, entryHigh entry = c ∧ last = entryLow entry by
    obtain ⟨first, marks, hback, -⟩ := hlast
    exact ⟨first, marks, hback⟩
  induction c using h.induction with
  | hhangul c hhangul =>
      rw [isHangulS_iff] at hhangul
      omega
  | hself c hnot hnone =>
      refine ⟨c, [], h.composesBack_self hc (h.full_self hnot hnone), fun last hlast => ?_⟩
      cases hlast
      exact .inl (h.class_low hc)
  | hentry entry hentry hnot hfirst _ =>
      obtain ⟨hmiddle, -, -, hothers⟩ := h.lowDecompositions entry hentry hc
      obtain ⟨first, marks, hback, hlast⟩ := hfirst hmiddle
      refine ⟨first, _, hback.snoc h hentry hc fun last hmem => ?_, fun last hmem => ?_⟩
      · obtain hzero | ⟨other, hother, hcode, rfl⟩ := hlast last hmem
        · rw [hzero]
          exact Nat.zero_le _
        · rw [h.unicodeCombiningClass_eq]
          exact (hothers other hother).2 hcode
      · rw [← List.cons_append, List.getLast?_append_of_ne_nil _ (by simp)] at hmem
        cases hmem
        exact .inr ⟨entry, hentry, rfl, rfl⟩

theorem runsOrdered_flatMap_low {s : List Nat} (hs : ∀ r ∈ s, r < 0x300) :
    RunsOrdered (unicodeCombiningClass tables) (s.flatMap h.full) ∧
      ∀ x ∈ (s.flatMap h.full).head?, unicodeCombiningClass tables x = 0 := by
  induction s with
  | nil => exact ⟨.nil, by simp⟩
  | cons r s ih =>
      obtain ⟨hordered, hhead⟩ := ih fun r' hr' => hs r' (List.mem_cons_of_mem r hr')
      obtain ⟨first, marks, hback⟩ := h.exists_composesBack (hs r List.mem_cons_self)
      rw [List.flatMap_cons, hback.full]
      constructor
      · refine List.isChain_append.mpr ⟨hback.ordered, hordered, ?_⟩
        intro _ _ next hnext hne
        exact absurd (hhead next hnext) hne
      · intro x hx
        cases hx
        exact h.class_low hback.low

/-- A code point below U+0300 is kept by the loop when its decomposition is composed. -/
theorem foldl_composeStep_low {s : List Nat} (hs : ∀ r ∈ s, r < 0x300) (state : Composing) :
    ((s.flatMap h.full).foldl (composeStep tables) state).out = state.out ++ s := by
  induction s generalizing state with
  | nil => simp
  | cons r s ih =>
      obtain ⟨first, marks, hback⟩ := h.exists_composesBack (hs r List.mem_cons_self)
      have hnone : state.composite tables first = none := by
        unfold Composing.composite
        cases state.starter <;> simp [h.unicodeComposite_second_low _ hback.low]
      have hstep : composeStep tables state first =
          ⟨state.out ++ [first], some state.out.length, 0⟩ := by
        simp [composeStep, hnone, h.class_low hback.low]
      rw [List.flatMap_cons, hback.full, List.foldl_append, List.foldl_cons, hstep, hback.back,
        ih fun r' hr' => hs r' (List.mem_cons_of_mem r hr')]
      simp

/-- A string of code points below U+0300 is its own form. -/
theorem nfc_low {s : List Nat} (hs : ∀ r ∈ s, r < 0x300) : h.nfc s = s := by
  rw [nfc, nfd, reorderCanonical_eq, orderRuns_of_ordered (h.runsOrdered_flatMap_low hs).1,
    composeCanonical, h.foldl_composeStep_low hs, List.nil_append]

/-- The bytes of the other code points are larger. -/
theorem low_of_utf8Bytes {s : List Nat} (hs : ValidString s)
    (hbytes : (utf8Bytes s).all (· < 0xCC)) : ∀ r ∈ s, r < 0x300 := by
  intro r hr
  have hval : (Char.ofNat r).val.toNat = r := by
    unfold Char.ofNat
    rw [dif_pos (hs r hr)]
    rfl
  have hlead : ∀ n < 256, UInt8.ofNat n ∈ String.utf8EncodeChar (Char.ofNat r) → n < 0xCC := by
    intro n hn hmem
    have hlt : UInt8.ofNat n < 0xCC := by
      simpa using List.all_eq_true.mp hbytes _ (List.mem_flatMap.mpr ⟨r, hr, hmem⟩)
    rw [UInt8.lt_iff_toNat_lt, UInt8.toNat_ofNat', Nat.mod_eq_of_lt hn] at hlt
    exact hlt
  unfold String.utf8EncodeChar at hlead
  rw [hval] at hlead
  simp only at hlead
  split_ifs at hlead with hone htwo hthree
  · omega
  · have hfirst := hlead (r / 64 % 32 + 192) (by omega) List.mem_cons_self
    omega
  · have hfirst := hlead (r / 4096 % 16 + 224) (by omega) List.mem_cons_self
    omega
  · have hfirst := hlead (r / 262144 % 8 + 240) (by omega) List.mem_cons_self
    omega

/-- The fast path returns the same as the whole algorithm. -/
theorem normalizeNfc_ends {s : List Nat} (hs : ValidString s) :
    Ends (fun fuel => normalizeNfc tables fuel s) (h.nfc s) := by
  by_cases hbytes : (utf8Bytes s).all (· < 0xCC)
  · refine ⟨0, fun fuel _ => ?_⟩
    change normalizeNfc tables fuel s = some (h.nfc s)
    rw [normalizeNfc, if_pos hbytes, h.nfc_low (low_of_utf8Bytes hs hbytes)]
  · have hslow := (h.canonicalDecomposition_ends s).map (composeCanonical tables)
    simp only [normalizeNfc, if_neg hbytes]
    exact hslow

end UnicodeTables.Stable

/-! ## Normalization Form C -/

/-- What `normalizeNfc` does for strings of code points. -/
structure ComputesNfc (tables : UnicodeTables) (nfc : List Nat → List Nat) : Prop where
  normalizes : ∀ s, ValidString s →
    Ends (fun fuel => normalizeNfc tables fuel s) (nfc s) ∧ ValidString (nfc s)
  -- Also for the strings of the fast path.
  whole : ∀ s, ValidString s → ∃ d, (∀ d', IsCanonicalDecomposition tables s d' ↔ d' = d) ∧
    Ends (fun fuel => canonicalDecomposition tables fuel s) d ∧
    nfc s = composeCanonical tables d ∧
    Composition tables.classOf (PrimaryComposite tables) [] d (nfc s)
  equivalent : ∀ s, ValidString s → CanonicallyEquivalent tables (nfc s) s
  idempotent : ∀ s, ValidString s → nfc (nfc s) = nfc s
  unique : ∀ a b, ValidString a → ValidString b →
    (nfc a = nfc b ↔ CanonicallyEquivalent tables a b)
  ordered : ∀ runes, IsOrdering tables.classOf runes (reorderCanonical tables runes) ∧
    ∀ k, (reorderCanonical tables runes).filter (fun r => tables.classOf r == k) =
      runes.filter fun r => tables.classOf r == k

theorem normalizeNfc_computesNfc (h : tables.Stable) : ComputesNfc tables h.nfc where
  normalizes s hs := ⟨h.normalizeNfc_ends hs, h.validString_nfc hs⟩
  whole s hs := by
    refine ⟨h.nfd s, fun d' => h.isCanonicalDecomposition_iff,
      h.canonicalDecomposition_ends s, rfl, ?_⟩
    rw [← h.unicodeCombiningClass_eq]
    exact composition_composeCanonical h
      (fun r hr => (h.mem_nfd hs hr).imp UnicodeTables.Stable.lt_of_isValidChar id)
      (h.runsOrdered_nfd s)
  equivalent s hs := h.canonicallyEquivalent_iff.mpr (h.nfd_nfc hs)
  idempotent s hs := h.nfc_nfc hs
  unique a b ha hb := by rw [h.canonicallyEquivalent_iff, h.nfc_eq_iff ha hb]
  ordered runes := by
    rw [isOrdering_iff, reorderCanonical_eq, h.unicodeCombiningClass_eq]
    exact ⟨rfl, fun k => filter_orderRuns k runes⟩

/-- The entries of the tables for `é`, `ṣ` and `ṩ`. -/
def latinTables : UnicodeTables where
  combiningClasses := [0x301e6, 0x307e6, 0x323dc]
  decompositions := [0x3a4000ca00301, 0x798c000e600323, 0x79a403cc600307]
  compositions := [0x19400602000e9, 0x1cc0064601e63, 0x798c0060e01e69]

/-- How often a code point of `latinTables` is decomposed. -/
def latinDepth (r : Nat) : Nat :=
  if r = 0x1E69 then 2 else if r = 0x1E63 ∨ r = 0xE9 then 1 else 0

theorem stable_latinTables : latinTables.Stable where
  sortedClasses := by decide +kernel
  sortedDecompositions := by decide +kernel
  sortedCompositions := by decide +kernel
  acyclic := by
    have hlt : ∀ entry ∈ latinTables.decompositions,
        latinDepth (entryMiddle entry) < latinDepth (entryHigh entry) ∧
          latinDepth (entryLow entry) < latinDepth (entryHigh entry) := by decide +kernel
    refine Subrelation.wf ?_ (measure latinDepth).wf
    rintro p r ⟨entry, hentry, rfl, rfl | rfl⟩
    · exact (hlt entry hentry).1
    · exact (hlt entry hentry).2
  codePoints := by decide +kernel
  jamo := by decide +kernel
  composites := by decide +kernel
  starters := by decide +kernel
  lowClasses := by decide +kernel
  lowCompositions := by decide +kernel
  lowDecompositions := by decide +kernel

/-- `s` with a dot above and a dot below is `ṩ`. -/
theorem normalizeNfc_computesNfc_latin :
    ComputesNfc latinTables stable_latinTables.nfc ∧
      normalizeNfc latinTables 3 [0x73, 0x307, 0x323] = some [0x1E69] :=
  ⟨normalizeNfc_computesNfc stable_latinTables, by decide +kernel⟩

end Vsql.Unicode
