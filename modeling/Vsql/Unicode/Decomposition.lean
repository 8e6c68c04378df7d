import Vsql.Unicode.Equivalence

/-!
# Canonical decompositions

A code point is decomposed until none of its parts has a mapping, which ends because the
mappings have no cycle.  The marks of a string are then put in the order of their classes, in
place, with an insertion sort.
-/

namespace Vsql.Unicode

open Foundation

/-! ## Decomposing -/

section

variable (tables : UnicodeTables)

/-- What a syllable of Hangul is decomposed to. -/
def decomposeHangul (r : Nat) : List Nat :=
  let index := r - hangulSBase
  [hangulLBase + index / hangulNCount, hangulVBase + index % hangulNCount / hangulTCount] ++
    if index % hangulTCount ≠ 0 then [hangulTBase + index % hangulTCount] else []

/-- What is appended to `out`, if the recursion is not deeper than the fuel. -/
def decomposeCanonical : Nat → Nat → Option (List Nat)
  | 0, _ => none
  | fuel + 1, r =>
      if IsHangulS r then some (decomposeHangul r)
      else
        match unicodeTableLookup tables.decompositions r 42 with
        | none => some [r]
        | some entry => do
            let first ← decomposeCanonical fuel (entry >>> 21)
            if entry &&& 0x1FFFFF ≠ 0 then
              let second ← decomposeCanonical fuel (entry &&& 0x1FFFFF)
              pure (first ++ second)
            else pure first

/-- The inner loop of `reorderCanonical`, with its `j`: the marks of a larger class are shifted
to the right. -/
def shiftMarks (class' : Nat) : Nat → List Nat → List Nat × Nat
  | 0, runes => (runes, 0)
  | j + 1, runes =>
      if class' ≠ 0 ∧ class' < unicodeCombiningClass tables (runes.getD j 0) then
        shiftMarks class' j (runes.set (j + 1) (runes.getD j 0))
      else (runes, j + 1)

def reorderCanonical (runes : List Nat) : List Nat :=
  (List.range' 1 (runes.length - 1)).foldl (fun runes i =>
    let r := runes.getD i 0
    let shifted := shiftMarks tables (unicodeCombiningClass tables r) i runes
    shifted.1.set shifted.2 r) runes

end

variable {tables : UnicodeTables}

/-! ## Every code point is decomposed -/

theorem partOf_first {r value : Nat}
    (hlookup : unicodeTableLookup tables.decompositions r 42 = some value) :
    tables.PartOf (value >>> 21) r := by
  obtain ⟨entry, hentry, hcode, rfl⟩ := unicodeTableLookup_some hlookup
  exact ⟨entry, hentry, hcode, .inl (lookup_shiftRight entry)⟩

theorem partOf_second {r value : Nat}
    (hlookup : unicodeTableLookup tables.decompositions r 42 = some value) :
    tables.PartOf (value &&& 0x1FFFFF) r := by
  obtain ⟨entry, hentry, hcode, rfl⟩ := unicodeTableLookup_some hlookup
  exact ⟨entry, hentry, hcode, .inr (lookup_and entry)⟩

/-- The full canonical decomposition of a code point. -/
def UnicodeTables.Stable.full (h : tables.Stable) (r : Nat) : List Nat :=
  if IsHangulS r then decomposeHangul r
  else
    match _hlookup : unicodeTableLookup tables.decompositions r 42 with
    | none => [r]
    | some entry =>
        h.full (entry >>> 21) ++
          if entry &&& 0x1FFFFF ≠ 0 then h.full (entry &&& 0x1FFFFF) else []
termination_by h.acyclic.wrap r
decreasing_by
  · exact partOf_first _hlookup
  · exact partOf_second _hlookup

namespace UnicodeTables.Stable

variable (h : tables.Stable)

theorem full_hangul {r : Nat} (hr : IsHangulS r) : h.full r = decomposeHangul r := by
  rw [full, if_pos hr]

theorem full_self {r : Nat} (hr : ¬IsHangulS r)
    (hnot : ∀ entry ∈ tables.decompositions, entryHigh entry ≠ r) : h.full r = [r] := by
  obtain ⟨hlookup, -⟩ | ⟨entry, hentry, hcode, -⟩ := h.lookup_cases r
  · rw [full, if_neg hr]
    split
    · rfl
    · next value hvalue =>
        rw [hlookup] at hvalue
        cases hvalue
  · exact absurd hcode (hnot entry hentry)

theorem full_entry {entry : Nat} (hentry : entry ∈ tables.decompositions)
    (hr : ¬IsHangulS (entryHigh entry)) :
    h.full (entryHigh entry) = h.full (entryMiddle entry) ++
      if entryLow entry ≠ 0 then h.full (entryLow entry) else [] := by
  have hlookup := h.lookup_decomposition hentry
  rw [full, if_neg hr]
  split
  · next hnone =>
      rw [hlookup] at hnone
      cases hnone
  · next value hvalue =>
      rw [hlookup] at hvalue
      cases hvalue
      rw [lookup_shiftRight, lookup_and]

/-- What holds of a code point when it holds of the code points of its mapping. -/
theorem induction (h : tables.Stable) {motive : Nat → Prop}
    (hhangul : ∀ r, IsHangulS r → motive r)
    (hself : ∀ r, ¬IsHangulS r → (∀ entry ∈ tables.decompositions, entryHigh entry ≠ r) → motive r)
    (hentry : ∀ entry ∈ tables.decompositions, ¬IsHangulS (entryHigh entry) →
      motive (entryMiddle entry) → (entryLow entry ≠ 0 → motive (entryLow entry)) →
      motive (entryHigh entry)) (r : Nat) : motive r := by
  refine h.acyclic.induction r fun r ih => ?_
  by_cases hr : IsHangulS r
  · exact hhangul r hr
  · by_cases hexists : ∃ entry ∈ tables.decompositions, entryHigh entry = r
    · obtain ⟨entry, hmem, rfl⟩ := hexists
      exact hentry entry hmem hr (ih _ ⟨entry, hmem, rfl, .inl rfl⟩)
        fun _ => ih _ ⟨entry, hmem, rfl, .inr rfl⟩
    · exact hself r hr fun entry hmem hcode => hexists ⟨entry, hmem, hcode⟩

/-- With enough fuel a code point is decomposed. -/
theorem decomposeCanonical_ends (r : Nat) :
    ∃ n, ∀ fuel ≥ n, decomposeCanonical tables fuel r = some (h.full r) := by
  induction r using h.induction with
  | hhangul r hr =>
      refine ⟨1, fun fuel hfuel => ?_⟩
      obtain ⟨fuel, rfl⟩ := Nat.exists_eq_add_of_le' hfuel
      rw [h.full_hangul hr, decomposeCanonical, if_pos hr]
  | hself r hr hnot =>
      obtain ⟨hlookup, -⟩ | ⟨entry, hentry, hcode, -⟩ := h.lookup_cases r
      · refine ⟨1, fun fuel hfuel => ?_⟩
        obtain ⟨fuel, rfl⟩ := Nat.exists_eq_add_of_le' hfuel
        rw [h.full_self hr hnot, decomposeCanonical, if_neg hr, hlookup]
      · exact absurd hcode (hnot entry hentry)
  | hentry entry hentry hr hfirst hsecond =>
      obtain ⟨n1, h1⟩ := hfirst
      obtain ⟨n2, h2⟩ : ∃ n, ∀ fuel ≥ n, entryLow entry ≠ 0 →
          decomposeCanonical tables fuel (entryLow entry) = some (h.full (entryLow entry)) := by
        by_cases hzero : entryLow entry = 0
        · exact ⟨0, fun _ _ hne => absurd hzero hne⟩
        · obtain ⟨n2, h2⟩ := hsecond hzero
          exact ⟨n2, fun fuel hfuel _ => h2 fuel hfuel⟩
      refine ⟨max n1 n2 + 1, fun fuel hfuel => ?_⟩
      obtain ⟨fuel, rfl⟩ := Nat.exists_eq_add_of_le' (show fuel ≥ 1 by omega)
      have hfuel1 := h1 fuel (by omega)
      have hfuel2 := h2 fuel (by omega)
      rw [h.full_entry hentry hr, decomposeCanonical, if_neg hr, h.lookup_decomposition hentry]
      simp only [lookup_shiftRight, lookup_and, hfuel1]
      by_cases hzero : entryLow entry = 0
      · simp [hzero]
      · simp [hzero, hfuel2 hzero]

/-! ## What a decomposition has -/

theorem not_hangul_of_jamo {r : Nat} (hr : IsHangulL r ∨ IsHangulV r ∨ IsHangulT r) :
    ¬IsHangulS r := by
  rw [isHangulS_iff]
  rw [isHangulL_iff, isHangulV_iff, isHangulT_iff] at hr
  omega

/-- The letters of Hangul have no mapping. -/
theorem full_jamo {r : Nat} (hr : IsHangulL r ∨ IsHangulV r ∨ IsHangulT r) : h.full r = [r] := by
  refine h.full_self (not_hangul_of_jamo hr) fun entry hentry hcode => ?_
  obtain ⟨hl, hv, ht⟩ := h.jamo entry hentry
  rw [hcode] at hl hv ht
  exact hr.elim hl fun hvt => hvt.elim hv ht

theorem decomposeHangul_eq (r : Nat) :
    decomposeHangul r = [0x1100 + (r - 0xAC00) / 588, 0x1161 + (r - 0xAC00) % 588 / 28] ++
      if (r - 0xAC00) % 28 ≠ 0 then [0x11A7 + (r - 0xAC00) % 28] else [] := rfl

theorem mem_decomposeHangul {r x : Nat} (hr : IsHangulS r) (hx : x ∈ decomposeHangul r) :
    IsHangulL x ∨ IsHangulV x ∨ IsHangulT x := by
  rw [isHangulS_iff] at hr
  rw [isHangulL_iff, isHangulV_iff, isHangulT_iff]
  rw [decomposeHangul_eq, List.cons_append, List.cons_append, List.nil_append, List.mem_cons,
    List.mem_cons] at hx
  obtain hx | hx | hx := hx
  · omega
  · omega
  · split_ifs at hx with hzero
    · rw [List.mem_singleton] at hx
      omega
    · cases hx

/-- What a code point is decomposed to is not decomposed further. -/
theorem full_of_mem_full {r x : Nat} (hx : x ∈ h.full r) : h.full x = [x] := by
  induction r using h.induction with
  | hhangul r hr =>
      rw [h.full_hangul hr] at hx
      exact h.full_jamo (mem_decomposeHangul hr hx)
  | hself r hr hnot =>
      rw [h.full_self hr hnot, List.mem_singleton] at hx
      rw [hx, h.full_self hr hnot]
  | hentry entry hentry hr hfirst hsecond =>
      rw [h.full_entry hentry hr, List.mem_append] at hx
      obtain hx | hx := hx
      · exact hfirst hx
      · split_ifs at hx with hzero
        · exact hsecond hzero hx
        · cases hx

theorem isValidChar_of_mem_full {r x : Nat} (hr : r.isValidChar) (hx : x ∈ h.full r) :
    x.isValidChar := by
  induction r using h.induction with
  | hhangul r hhangul =>
      rw [h.full_hangul hhangul] at hx
      left
      obtain ⟨-, hlt⟩ | ⟨-, hlt⟩ | ⟨-, hlt⟩ := mem_decomposeHangul hhangul hx <;>
        exact hlt.trans (by decide)
  | hself r hr' hnot =>
      rw [h.full_self hr' hnot, List.mem_singleton] at hx
      rw [hx]
      exact hr
  | hentry entry hentry hr' hfirst hsecond =>
      obtain ⟨-, hmiddle, hlow⟩ := h.codePoints entry hentry
      rw [h.full_entry hentry hr', List.mem_append] at hx
      obtain hx | hx := hx
      · exact hfirst hmiddle hx
      · split_ifs at hx with hzero
        · exact hsecond hzero hlow hx
        · cases hx

/-- A syllable is decomposed to what its two parts are. -/
theorem full_of_hangulComposite {a b c : Nat} (hc : HangulComposite a b c) :
    h.full c = h.full a ++ h.full b := by
  have hs : IsHangulS c := isHangulS_iff_hangulComposite.mpr ⟨a, b, hc⟩
  rw [h.full_hangul hs, decomposeHangul_eq]
  obtain ⟨l, v, hl, hv, rfl, rfl, hcode⟩ | ⟨l, v, t, hl, hv, hpos, ht, ha, rfl, hcode⟩ := hc
  · have ha : IsHangulL (0x1100 + l) := isHangulL_iff.mpr (by omega)
    have hb : IsHangulV (0x1161 + v) := isHangulV_iff.mpr (by omega)
    have hfirst : (c - 0xAC00) / 588 = l := by omega
    have hsecond : (c - 0xAC00) % 588 / 28 = v := by omega
    rw [h.full_jamo (.inl ha), h.full_jamo (.inr (.inl hb)), hfirst, hsecond, if_neg (by omega)]
    rfl
  · have hs' : IsHangulS a := isHangulS_iff.mpr (by omega)
    have hb : IsHangulT (0x11A7 + t) := isHangulT_iff.mpr (by omega)
    have hfirst : (c - 0xAC00) / 588 = (a - 0xAC00) / 588 := by omega
    have hsecond : (c - 0xAC00) % 588 / 28 = (a - 0xAC00) % 588 / 28 := by omega
    have hthird : (c - 0xAC00) % 28 = t := by omega
    rw [h.full_jamo (.inr (.inr hb)), h.full_hangul hs', decomposeHangul_eq, hfirst, hsecond,
      hthird, if_pos (by omega), if_neg (by omega), List.append_nil]

/-- A composite is decomposed to what its two parts are. -/
theorem full_of_composite {a b c : Nat} (hc : PrimaryComposite tables a b c) :
    h.full c = h.full a ++ h.full b := by
  obtain hhangul | ⟨-, hsyllable, hzero, mapping, hmapping, rfl, rfl, rfl⟩ :=
    h.mapping_of_composite hc
  · exact h.full_of_hangulComposite hhangul
  · rw [h.full_entry hmapping hsyllable, if_pos hzero]

theorem not_hangulComposite_of {r : Nat} (hr : ¬IsHangulS r) : ∀ a b, ¬HangulComposite a b r :=
  fun a b hc => hr (isHangulS_iff_hangulComposite.mpr ⟨a, b, hc⟩)

theorem not_hangul_of_forall {r : Nat} (hr : ∀ a b, ¬HangulComposite a b r) : ¬IsHangulS r := by
  rw [isHangulS_iff_hangulComposite]
  rintro ⟨a, b, hc⟩
  exact hr a b hc

theorem decomposes_jamo (h : tables.Stable) {r : Nat}
    (hr : IsHangulL r ∨ IsHangulV r ∨ IsHangulT r) :
    Decomposes tables r [r] := by
  refine .self (not_hangulComposite_of (not_hangul_of_jamo hr)) fun entry hentry hcode => ?_
  obtain ⟨hl, hv, ht⟩ := h.jamo entry hentry
  rw [hcode] at hl hv ht
  exact hr.elim hl fun hvt => hvt.elim hv ht

theorem decomposes_vowel {a b c l v : Nat} (hl : l < 19) (hv : v < 21) (ha : a = 0x1100 + l)
    (hb : b = 0x1161 + v) (hc : HangulComposite a b c) : Decomposes tables c (h.full c) := by
  have hla : IsHangulL a := isHangulL_iff.mpr (by omega)
  have hvb : IsHangulV b := isHangulV_iff.mpr (by omega)
  rw [h.full_of_hangulComposite hc, h.full_jamo (.inl hla), h.full_jamo (.inr (.inl hvb))]
  exact .syllable hc (decomposes_jamo h (.inl hla)) (decomposes_jamo h (.inr (.inl hvb)))

theorem decomposes_syllable {r : Nat} (hr : IsHangulS r) : Decomposes tables r (h.full r) := by
  obtain ⟨a, b, hc⟩ := isHangulS_iff_hangulComposite.mp hr
  have hcomposite := hc
  cases hc with
  | vowel l v hl hv ha hb => exact h.decomposes_vowel hl hv ha hb hcomposite
  | final l v t hl hv hpos ht ha hb =>
      have hfirst : Decomposes tables a (h.full a) :=
        h.decomposes_vowel hl hv rfl rfl (.vowel l v hl hv rfl rfl ha)
      have hfinal : IsHangulT b := isHangulT_iff.mpr (by omega)
      rw [h.full_of_hangulComposite hcomposite, h.full_jamo (.inr (.inr hfinal))]
      exact .syllable hcomposite hfirst (decomposes_jamo h (.inr (.inr hfinal)))

/-- What is computed is the decomposition that Unicode defines. -/
theorem decomposes_iff {r : Nat} {x : List Nat} : Decomposes tables r x ↔ x = h.full r := by
  constructor
  · intro hx
    induction hx with
    | self hsyllable hnot => exact (h.full_self (not_hangul_of_forall hsyllable) hnot).symm
    | syllable hc _ _ hfirst hsecond =>
        rw [h.full_of_hangulComposite hc, ← hfirst, ← hsecond]
    | single hentry hsyllable hzero _ hfirst =>
        rw [h.full_entry hentry (not_hangul_of_forall hsyllable), if_neg (not_not.mpr hzero),
          ← hfirst, List.append_nil]
    | pair hentry hsyllable hzero _ _ hfirst hsecond =>
        rw [h.full_entry hentry (not_hangul_of_forall hsyllable), if_pos hzero, ← hfirst,
          ← hsecond]
  · rintro rfl
    induction r using h.induction with
    | hhangul r hr => exact h.decomposes_syllable hr
    | hself r hr hnot =>
        rw [h.full_self hr hnot]
        exact .self (not_hangulComposite_of hr) hnot
    | hentry entry hentry hr hfirst hsecond =>
        rw [h.full_entry hentry hr]
        by_cases hzero : entryLow entry = 0
        · rw [if_neg (not_not.mpr hzero), List.append_nil]
          exact .single hentry (not_hangulComposite_of hr) hzero hfirst
        · rw [if_pos hzero]
          exact .pair hentry (not_hangulComposite_of hr) hzero hfirst (hsecond hzero)

end UnicodeTables.Stable

/-! ## Reordering -/

/-- The inner loop inserts a code point into what is before it. -/
theorem set_shiftMarks (r y : Nat) (ps suffix : List Nat) :
    (shiftMarks tables (unicodeCombiningClass tables r) ps.length (ps.reverse ++ y :: suffix)).1.set
        (shiftMarks tables (unicodeCombiningClass tables r) ps.length
          (ps.reverse ++ y :: suffix)).2 r =
      (insertBack (unicodeCombiningClass tables) r ps).reverse ++ suffix := by
  induction ps generalizing y suffix with
  | nil => rfl
  | cons p ps ih =>
      have hget : ((p :: ps).reverse ++ y :: suffix).getD ps.length 0 = p := by
        simp [List.getD_eq_getElem?_getD]
      have hset : ∀ z, ((p :: ps).reverse ++ y :: suffix).set (ps.length + 1) z =
          ps.reverse ++ p :: z :: suffix := by
        intro z
        rw [List.set_append_right _ _ (by simp)]
        simp
      rw [List.length_cons, shiftMarks, hget]
      unfold insertBack
      split_ifs with hmove
      · rw [hset, ih]
        simp
      · simp only [hset]
        simp

theorem foldl_reorder (ps x : List Nat) :
    (List.range' ps.length x.length).foldl (fun runes i =>
        let r := runes.getD i 0
        let shifted := shiftMarks tables (unicodeCombiningClass tables r) i runes
        shifted.1.set shifted.2 r) (ps.reverse ++ x) =
      (insertAll (unicodeCombiningClass tables) ps x).reverse := by
  induction x generalizing ps with
  | nil => simp
  | cons r x ih =>
      have hget : (ps.reverse ++ r :: x).getD ps.length 0 = r := by
        simp [List.getD_eq_getElem?_getD]
      have hlength : (insertBack (unicodeCombiningClass tables) r ps).length = ps.length + 1 :=
        (insertBack_perm r ps).length_eq
      have hrest := ih (insertBack (unicodeCombiningClass tables) r ps)
      rw [hlength] at hrest
      rw [List.length_cons, List.range'_succ, List.foldl_cons]
      simp only [hget, set_shiftMarks]
      rw [hrest, insertAll_cons]

theorem reorderCanonical_eq (x : List Nat) :
    reorderCanonical tables x = orderRuns (unicodeCombiningClass tables) x := by
  cases x with
  | nil => rfl
  | cons r x =>
      have hloop := @foldl_reorder tables [r] x
      simpa [reorderCanonical, orderRuns, insertBack] using hloop

end Vsql.Unicode
