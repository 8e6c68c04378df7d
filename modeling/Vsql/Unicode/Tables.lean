import Mathlib.Data.List.Pairwise
import Mathlib.Data.Nat.Bitwise
import Mathlib.Order.Basic
import Mathlib.Tactic.SplitIfs

/-!
# The tables of Unicode

The tables are generated, and are searched by the key that each entry begins with.  A syllable
of Hangul is not looked up: its mappings are calculated.  `Stable` is what Unicode promises
about the tables of every version.  A rune is the number of a code point.
-/

namespace Vsql.Unicode

/-! ## Looking up -/

/-- The search of `unicodeTableLookup`, with its `low` and `high`. -/
def lookupBetween (table : List Nat) (key shift low high : Nat) : Option Nat :=
  if low < high then
    let mid := (low + high) / 2
    let found := table.getD mid 0 >>> shift
    if found = key then some (table.getD mid 0 &&& (1 <<< shift - 1))
    else if found < key then lookupBetween table key shift (mid + 1) high
    else lookupBetween table key shift low mid
  else none
termination_by high - low

def unicodeTableLookup (table : List Nat) (key shift : Nat) : Option Nat :=
  lookupBetween table key shift 0 table.length

theorem lookupBetween_some {table : List Nat} {key shift low high value : Nat}
    (hhigh : high ≤ table.length)
    (h : lookupBetween table key shift low high = some value) :
    ∃ entry ∈ table, entry >>> shift = key ∧ value = entry &&& (1 <<< shift - 1) := by
  fun_induction lookupBetween table key shift low high with
  | case1 low high hlt mid found heq =>
      cases h
      have hmid : mid < table.length := by omega
      refine ⟨table.getD mid 0, ?_, heq, rfl⟩
      rw [List.getD_eq_getElem _ _ hmid]
      exact List.getElem_mem hmid
  | case2 low high hlt mid found hne hless ih => exact ih hhigh h
  | case3 low high hlt mid found hne hnot ih => exact ih (by omega) h
  | case4 low high hnot => cases h

/-- The entries are sorted by their keys. -/
def KeysSorted (shift : Nat) (table : List Nat) : Prop :=
  table.Pairwise fun a b => a >>> shift ≤ b >>> shift

theorem lookupBetween_none {table : List Nat} {key shift low high : Nat}
    (hsorted : KeysSorted shift table) (hhigh : high ≤ table.length)
    (h : lookupBetween table key shift low high = none) {i : Nat} (hlow : low ≤ i) (hi : i < high) :
    table.getD i 0 >>> shift ≠ key := by
  have hle : ∀ i j, i ≤ j → j < table.length →
      table.getD i 0 >>> shift ≤ table.getD j 0 >>> shift := by
    intro i j hij hj
    rw [List.getD_eq_getElem _ _ (by omega), List.getD_eq_getElem _ _ hj]
    obtain rfl | hlt := hij.eq_or_lt
    · exact le_rfl
    · exact List.pairwise_iff_getElem.mp hsorted i j (by omega) hj hlt
  fun_induction lookupBetween table key shift low high with
  | case1 low high hlt mid found heq => cases h
  | case2 low high hlt mid found hne hless ih =>
      by_cases hmid : mid < i
      · exact ih hhigh h (by omega) hi
      · exact ((hle i mid (by omega) (by omega)).trans_lt hless).ne
  | case3 low high hlt mid found hne hnot ih =>
      by_cases hmid : i < mid
      · exact ih (by omega) h hlow hmid
      · have hfound : key < found := by omega
        exact (hfound.trans_le (hle mid i (by omega) (by omega))).ne'
  | case4 low high hnot => omega

/-- An entry is found by its key. -/
theorem unicodeTableLookup_some {table : List Nat} {key shift value : Nat}
    (h : unicodeTableLookup table key shift = some value) :
    ∃ entry ∈ table, entry >>> shift = key ∧ value = entry &&& (1 <<< shift - 1) :=
  lookupBetween_some le_rfl h

theorem unicodeTableLookup_isSome {table : List Nat} {shift entry : Nat}
    (hsorted : KeysSorted shift table) (h : entry ∈ table) :
    (unicodeTableLookup table (entry >>> shift) shift).isSome := by
  obtain ⟨i, hi, rfl⟩ := List.getElem_of_mem h
  by_contra hnone
  rw [Option.not_isSome_iff_eq_none] at hnone
  have hne := lookupBetween_none hsorted le_rfl hnone (Nat.zero_le i) hi
  rw [List.getD_eq_getElem _ _ hi] at hne
  exact hne rfl

theorem unicodeTableLookup_eq {table : List Nat} {shift entry : Nat}
    (hsorted : KeysSorted shift table) (h : entry ∈ table)
    (hunique : ∀ other ∈ table, other >>> shift = entry >>> shift → other = entry) :
    unicodeTableLookup table (entry >>> shift) shift = some (entry &&& (1 <<< shift - 1)) := by
  obtain ⟨value, hvalue⟩ := Option.isSome_iff_exists.mp (unicodeTableLookup_isSome hsorted h)
  obtain ⟨other, hother, hkey, rfl⟩ := unicodeTableLookup_some hvalue
  rw [hvalue, hunique other hother hkey]

/-! ## Hangul -/

def hangulSBase : Nat := 0xAC00
def hangulLBase : Nat := 0x1100
def hangulVBase : Nat := 0x1161
def hangulTBase : Nat := 0x11A7
def hangulLCount : Nat := 19
def hangulVCount : Nat := 21
def hangulTCount : Nat := 28
def hangulNCount : Nat := hangulVCount * hangulTCount
def hangulSCount : Nat := hangulLCount * hangulNCount

abbrev IsHangulS (r : Nat) : Prop := hangulSBase ≤ r ∧ r < hangulSBase + hangulSCount

abbrev IsHangulL (r : Nat) : Prop := hangulLBase ≤ r ∧ r < hangulLBase + hangulLCount

abbrev IsHangulV (r : Nat) : Prop := hangulVBase ≤ r ∧ r < hangulVBase + hangulVCount

/-- A syllable without a final consonant is followed by `hangulTBase` itself. -/
abbrev IsHangulT (r : Nat) : Prop := hangulTBase < r ∧ r < hangulTBase + hangulTCount

theorem isHangulS_iff {r : Nat} : IsHangulS r ↔ 0xAC00 ≤ r ∧ r < 0xD7A4 := Iff.rfl

theorem isHangulL_iff {r : Nat} : IsHangulL r ↔ 0x1100 ≤ r ∧ r < 0x1113 := Iff.rfl

theorem isHangulV_iff {r : Nat} : IsHangulV r ↔ 0x1161 ≤ r ∧ r < 0x1176 := Iff.rfl

theorem isHangulT_iff {r : Nat} : IsHangulT r ↔ 0x11A7 < r ∧ r < 0x11C3 := Iff.rfl

/-- A syllable has a consonant and a vowel, or such a syllable and a final consonant. -/
inductive HangulComposite (a b c : Nat) : Prop where
  | vowel (l v : Nat) (hl : l < 19) (hv : v < 21) (ha : a = 0x1100 + l) (hb : b = 0x1161 + v)
      (hc : c = 0xAC00 + (l * 21 + v) * 28)
  | final (l v t : Nat) (hl : l < 19) (hv : v < 21) (hpos : 0 < t) (ht : t < 28)
      (ha : a = 0xAC00 + (l * 21 + v) * 28) (hb : b = 0x11A7 + t) (hc : c = a + t)

theorem hangulComposite_iff {a b c : Nat} :
    HangulComposite a b c ↔
      (IsHangulL a ∧ IsHangulV b ∧ c = 0xAC00 + ((a - 0x1100) * 21 + (b - 0x1161)) * 28) ∨
        (IsHangulS a ∧ (a - 0xAC00) % 28 = 0 ∧ IsHangulT b ∧ c = a + b - 0x11A7) := by
  rw [isHangulL_iff, isHangulV_iff, isHangulS_iff, isHangulT_iff]
  constructor
  · rintro (⟨l, v, hl, hv, ha, hb, hc⟩ | ⟨l, v, t, hl, hv, hpos, ht, ha, hb, hc⟩)
    · left
      omega
    · right
      omega
  · rintro (⟨ha, hb, hc⟩ | ⟨ha, hopen, hb, hc⟩)
    · refine .vowel (a - 0x1100) (b - 0x1161) ?_ ?_ ?_ ?_ ?_ <;> omega
    · refine .final ((a - 0xAC00) / 588) ((a - 0xAC00) % 588 / 28) (b - 0x11A7) ?_ ?_ ?_ ?_ ?_ ?_ ?_
        <;> omega

/-- Only the syllables are composites of Hangul. -/
theorem isHangulS_iff_hangulComposite {c : Nat} :
    IsHangulS c ↔ ∃ a b, HangulComposite a b c := by
  rw [isHangulS_iff]
  constructor
  · intro hc
    have hl : (c - 0xAC00) / 588 < 19 := by omega
    have hv : (c - 0xAC00) % 588 / 28 < 21 := by omega
    by_cases hopen : (c - 0xAC00) % 28 = 0
    · exact ⟨_, _, .vowel _ _ hl hv rfl rfl (by omega)⟩
    · refine ⟨_, _, .final _ _ ((c - 0xAC00) % 28) hl hv ?_ ?_ rfl rfl ?_⟩ <;> omega
  · rintro ⟨a, b, ⟨l, v, hl, hv, ha, hb, hc⟩ | ⟨l, v, t, hl, hv, hpos, ht, ha, hb, hc⟩⟩ <;> omega

/-! ## The tables -/

structure UnicodeTables where
  /-- `code point << 8 | class` -/
  combiningClasses : List Nat
  /-- `code point << 42 | first << 21 | second`, where `second` is 0 if there is only one. -/
  decompositions : List Nat
  /-- `first << 42 | second << 21 | composite` -/
  compositions : List Nat

variable (tables : UnicodeTables)

/-- The class in the entry of a code point. -/
def UnicodeTables.classOf (r : Nat) : Nat :=
  ((tables.combiningClasses.find? fun entry => entry >>> 8 == r).map (· % 256)).getD 0

def unicodeCombiningClass (r : Nat) : Nat :=
  (unicodeTableLookup tables.combiningClasses r 8).getD 0

def unicodeComposite (a b : Nat) : Option Nat :=
  if IsHangulL a ∧ IsHangulV b then
    let index := (a - hangulLBase) * hangulVCount + (b - hangulVBase)
    some (hangulSBase + index * hangulTCount)
  else if IsHangulS a ∧ (a - hangulSBase) % hangulTCount = 0 ∧ IsHangulT b then
    some (a + b - hangulTBase)
  else unicodeTableLookup tables.compositions (a <<< 21 ||| b) 21

/-! ## Stability -/

/-- The three code points of an entry. -/
def entryHigh (entry : Nat) : Nat := entry >>> 42
def entryMiddle (entry : Nat) : Nat := (entry >>> 21) &&& 0x1FFFFF
def entryLow (entry : Nat) : Nat := entry &&& 0x1FFFFF

/-- `p` is one of the code points that `r` is decomposed to. -/
def UnicodeTables.PartOf (p r : Nat) : Prop :=
  ∃ entry ∈ tables.decompositions, entryHigh entry = r ∧
    (p = entryMiddle entry ∨ p = entryLow entry)

/-- What every version of Unicode promises about its tables. -/
structure UnicodeTables.Stable : Prop where
  sortedClasses : tables.combiningClasses.Pairwise fun a b => a >>> 8 < b >>> 8
  sortedDecompositions : tables.decompositions.Pairwise fun a b => entryHigh a < entryHigh b
  -- The generated table also has the syllables, which are never looked up.
  sortedCompositions : tables.compositions.Pairwise fun a b =>
    a >>> 21 < b >>> 21 ∨ a >>> 21 = b >>> 21 ∧ IsHangulL (entryHigh a) ∧ IsHangulV (entryMiddle a)
  acyclic : WellFounded tables.PartOf
  codePoints : ∀ entry ∈ tables.decompositions, (entryHigh entry).isValidChar ∧
    (entryMiddle entry).isValidChar ∧ (entryLow entry).isValidChar
  jamo : ∀ entry ∈ tables.decompositions, ¬IsHangulL (entryHigh entry) ∧
    ¬IsHangulV (entryHigh entry) ∧ ¬IsHangulT (entryHigh entry)
  composites : ∀ entry ∈ tables.compositions,
    IsHangulL (entryHigh entry) ∧ IsHangulV (entryMiddle entry) ∨
      ¬IsHangulS (entryLow entry) ∧ entryMiddle entry ≠ 0 ∧
        ∃ mapping ∈ tables.decompositions, entryHigh mapping = entryLow entry ∧
          entryMiddle mapping = entryHigh entry ∧ entryLow mapping = entryMiddle entry
  starters : ∀ entry ∈ tables.combiningClasses, ¬IsHangulS (entry >>> 8) ∧
    ∀ composition ∈ tables.compositions, entryLow composition ≠ entry >>> 8
  -- Below U+0300 everything is a starter, is not the end of a composite, and is only
  -- decomposed to a pair that composes to it again.
  lowClasses : ∀ entry ∈ tables.combiningClasses, 0x300 ≤ entry >>> 8
  lowCompositions : ∀ entry ∈ tables.compositions, 0x300 ≤ entryMiddle entry
  lowDecompositions : ∀ entry ∈ tables.decompositions, entryHigh entry < 0x300 →
    entryMiddle entry < 0x300 ∧ tables.classOf (entryLow entry) ≠ 0 ∧
      (∃ composition ∈ tables.compositions, entryLow composition = entryHigh entry ∧
        entryHigh composition = entryMiddle entry ∧ entryMiddle composition = entryLow entry) ∧
      ∀ other ∈ tables.decompositions, entryHigh other ≠ entryLow entry ∧
        (entryHigh other = entryMiddle entry →
          tables.classOf (entryLow other) ≤ tables.classOf (entryLow entry))

/-! ## Entries -/

theorem and_mask (n bits : Nat) : n &&& (1 <<< bits - 1) = n % 2 ^ bits := by
  rw [Nat.shiftLeft_eq, one_mul, Nat.and_two_pow_sub_one_eq_mod]

theorem and_runeMask (n : Nat) : n &&& 0x1FFFFF = n % 2 ^ 21 := Nat.and_two_pow_sub_one_eq_mod n 21

theorem entryLow_lt (entry : Nat) : entryLow entry < 2 ^ 21 := by
  rw [entryLow, and_runeMask]
  omega

theorem entryMiddle_lt (entry : Nat) : entryMiddle entry < 2 ^ 21 := by
  rw [entryMiddle, and_runeMask]
  omega

theorem shiftLeft_or {a b bits : Nat} (hb : b < 2 ^ bits) :
    a <<< bits ||| b = a * 2 ^ bits + b := by
  rw [← Nat.shiftLeft_add_eq_or_of_lt hb, Nat.shiftLeft_eq]

/-- The first code point of what a lookup returns. -/
theorem lookup_shiftRight (entry : Nat) :
    (entry &&& (1 <<< 42 - 1)) >>> 21 = entryMiddle entry := by
  simp only [entryMiddle, and_mask, and_runeMask, Nat.shiftRight_eq_div_pow]
  omega

theorem lookup_and (entry : Nat) : (entry &&& (1 <<< 42 - 1)) &&& 0x1FFFFF = entryLow entry := by
  simp only [entryLow, and_mask, and_runeMask]
  omega

/-- The key of a pair in the compositions. -/
theorem compositionKey_eq {entry a b : Nat} (hb : b < 2 ^ 21) :
    entry >>> 21 = a <<< 21 ||| b ↔ entryHigh entry = a ∧ entryMiddle entry = b := by
  rw [shiftLeft_or hb]
  simp only [entryHigh, entryMiddle, and_runeMask, Nat.shiftRight_eq_div_pow]
  omega

variable {tables}

/-! ## What is found -/

theorem eq_or_of_pairwise {R : Nat → Nat → Prop} {table : List Nat} (h : table.Pairwise R)
    {a b : Nat} (ha : a ∈ table) (hb : b ∈ table) : a = b ∨ R a b ∨ R b a := by
  have : Std.Symm fun a b => a = b ∨ R a b ∨ R b a :=
    ⟨fun a b hab => hab.imp Eq.symm Or.symm⟩
  have hpairwise : table.Pairwise fun a b => a = b ∨ R a b ∨ R b a :=
    h.imp fun hab => .inr (.inl hab)
  exact List.Pairwise.forall_of_forall (fun _ _ => .inl rfl) hpairwise ha hb

/-- `first` and `second` of the entry of a code point. -/
theorem UnicodeTables.Stable.lookup_decomposition (h : tables.Stable) {entry : Nat}
    (hentry : entry ∈ tables.decompositions) :
    unicodeTableLookup tables.decompositions (entryHigh entry) 42 =
      some (entry &&& (1 <<< 42 - 1)) := by
  apply unicodeTableLookup_eq (h.sortedDecompositions.imp le_of_lt) hentry
  intro other hother hkey
  obtain heq | hlt | hlt := eq_or_of_pairwise h.sortedDecompositions hother hentry
  · exact heq
  · exact absurd hkey hlt.ne
  · exact absurd hkey hlt.ne'

/-- What a lookup of a mapping returns. -/
theorem UnicodeTables.Stable.lookup_cases (h : tables.Stable) (r : Nat) :
    unicodeTableLookup tables.decompositions r 42 = none ∧
        (∀ entry ∈ tables.decompositions, entryHigh entry ≠ r) ∨
      ∃ entry ∈ tables.decompositions, entryHigh entry = r ∧
        unicodeTableLookup tables.decompositions r 42 = some (entry &&& (1 <<< 42 - 1)) := by
  by_cases hexists : ∃ entry ∈ tables.decompositions, entryHigh entry = r
  · obtain ⟨entry, hentry, rfl⟩ := hexists
    exact .inr ⟨entry, hentry, rfl, h.lookup_decomposition hentry⟩
  · left
    refine ⟨?_, fun entry hentry hcode => hexists ⟨entry, hentry, hcode⟩⟩
    cases hlookup : unicodeTableLookup tables.decompositions r 42 with
    | none => rfl
    | some value =>
        obtain ⟨entry, hentry, hcode, -⟩ := unicodeTableLookup_some hlookup
        exact absurd ⟨entry, hentry, hcode⟩ hexists

theorem classOf_ne_zero {r : Nat} (h : tables.classOf r ≠ 0) :
    ∃ entry ∈ tables.combiningClasses, entry >>> 8 = r := by
  unfold UnicodeTables.classOf at h
  cases hfind : tables.combiningClasses.find? fun entry => entry >>> 8 == r with
  | none => simp [hfind] at h
  | some entry =>
      exact ⟨entry, List.mem_of_find?_eq_some hfind, by simpa using List.find?_some hfind⟩

/-- The search finds the class that a code point has. -/
theorem UnicodeTables.Stable.unicodeCombiningClass_eq (h : tables.Stable) :
    unicodeCombiningClass tables = tables.classOf := by
  funext r
  unfold unicodeCombiningClass UnicodeTables.classOf
  cases hfind : tables.combiningClasses.find? fun entry => entry >>> 8 == r with
  | none =>
      have hnot : ∀ entry ∈ tables.combiningClasses, entry >>> 8 ≠ r := by
        simpa using List.find?_eq_none.mp hfind
      cases hlookup : unicodeTableLookup tables.combiningClasses r 8 with
      | none => rfl
      | some value =>
          obtain ⟨entry, hentry, hkey, -⟩ := unicodeTableLookup_some hlookup
          exact absurd hkey (hnot entry hentry)
  | some entry =>
      have hentry := List.mem_of_find?_eq_some hfind
      have hkey : entry >>> 8 = r := by simpa using List.find?_some hfind
      have hunique : ∀ other ∈ tables.combiningClasses, other >>> 8 = entry >>> 8 →
          other = entry := by
        intro other hother hsame
        obtain heq | hlt | hlt := eq_or_of_pairwise h.sortedClasses hother hentry
        · exact heq
        · exact absurd hsame hlt.ne
        · exact absurd hsame hlt.ne'
      rw [← hkey, unicodeTableLookup_eq (h.sortedClasses.imp le_of_lt) hentry hunique, and_mask]
      rfl

/-- What a pair composes to: a syllable, or what the compositions say. -/
inductive PrimaryComposite (tables : UnicodeTables) (a b c : Nat) : Prop where
  | hangul (hc : HangulComposite a b c)
  | entry {entry : Nat} (hnot : ∀ s, ¬HangulComposite a b s)
      (hentry : entry ∈ tables.compositions) (hfirst : entryHigh entry = a)
      (hsecond : entryMiddle entry = b) (hc : entryLow entry = c)

/-- A composite is a syllable, or has a mapping to its two parts. -/
theorem UnicodeTables.Stable.mapping_of_composite (h : tables.Stable) {a b c : Nat}
    (hc : PrimaryComposite tables a b c) :
    HangulComposite a b c ∨ (∃ composition ∈ tables.compositions, entryLow composition = c) ∧
      ¬IsHangulS c ∧ b ≠ 0 ∧ ∃ mapping ∈ tables.decompositions, entryHigh mapping = c ∧
        entryMiddle mapping = a ∧ entryLow mapping = b := by
  obtain hhangul | ⟨hnot, hentry, rfl, rfl, rfl⟩ := hc
  · exact .inl hhangul
  · obtain ⟨hl, hv⟩ | ⟨hsyllable, hzero, hmapping⟩ := h.composites _ hentry
    · exact absurd (hangulComposite_iff.mpr (.inl ⟨hl, hv, rfl⟩)) (hnot _)
    · exact .inr ⟨⟨_, hentry, rfl⟩, hsyllable, hzero, hmapping⟩

/-- The composition of a pair is found by its key. -/
theorem UnicodeTables.Stable.lookup_composition (h : tables.Stable) {composition : Nat}
    (hcomposition : composition ∈ tables.compositions)
    (hnot : ¬(IsHangulL (entryHigh composition) ∧ IsHangulV (entryMiddle composition))) :
    unicodeTableLookup tables.compositions (composition >>> 21) 21 =
      some (entryLow composition) := by
  have hsorted : KeysSorted 21 tables.compositions :=
    h.sortedCompositions.imp fun hab => hab.elim le_of_lt fun heq => heq.1.le
  refine unicodeTableLookup_eq hsorted hcomposition fun other hother heq => ?_
  have hkey : composition >>> 21 = entryHigh composition <<< 21 ||| entryMiddle composition :=
    (compositionKey_eq (entryMiddle_lt composition)).mpr ⟨rfl, rfl⟩
  have hpair := (compositionKey_eq (entryMiddle_lt composition)).mp (heq.trans hkey)
  obtain rfl | (hlt | hsame) | hlt | hsame :=
    eq_or_of_pairwise h.sortedCompositions hother hcomposition
  · rfl
  · exact absurd heq hlt.ne
  · rw [hpair.1, hpair.2] at hsame
    exact absurd hsame.2 hnot
  · exact absurd heq hlt.ne'
  · exact absurd hsame.2 hnot

/-- The search finds the composite of a pair, if it has one. -/
theorem UnicodeTables.Stable.unicodeComposite_eq_some (h : tables.Stable) {a b c : Nat}
    (hb : b < 2 ^ 21) :
    unicodeComposite tables a b = some c ↔ PrimaryComposite tables a b c := by
  unfold unicodeComposite
  split_ifs with hvowel hfinal
  · have hnot : ¬IsHangulS a := by
      rw [isHangulS_iff]
      have hl := isHangulL_iff.mp hvowel.1
      omega
    constructor
    · intro hc
      exact .hangul (hangulComposite_iff.mpr
        (.inl ⟨hvowel.1, hvowel.2, (Option.some.inj hc).symm⟩))
    · rintro (hc | ⟨hnone, -⟩)
      · obtain ⟨-, -, hcode⟩ | ⟨hs, -⟩ := hangulComposite_iff.mp hc
        · exact congrArg some hcode.symm
        · exact absurd hs hnot
      · exact absurd (hangulComposite_iff.mpr (.inl ⟨hvowel.1, hvowel.2, rfl⟩)) (hnone _)
  · constructor
    · intro hc
      exact .hangul (hangulComposite_iff.mpr
        (.inr ⟨hfinal.1, hfinal.2.1, hfinal.2.2, (Option.some.inj hc).symm⟩))
    · rintro (hc | ⟨hnone, -⟩)
      · obtain ⟨hl, hv, -⟩ | ⟨-, -, -, hcode⟩ := hangulComposite_iff.mp hc
        · exact absurd ⟨hl, hv⟩ hvowel
        · exact congrArg some hcode.symm
      · exact absurd (hangulComposite_iff.mpr (.inr ⟨hfinal.1, hfinal.2.1, hfinal.2.2, rfl⟩))
          (hnone _)
  · have hnone : ∀ s, ¬HangulComposite a b s := by
      intro s hs
      obtain ⟨hl, hv, -⟩ | ⟨hs, hopen, ht, -⟩ := hangulComposite_iff.mp hs
      · exact hvowel ⟨hl, hv⟩
      · exact hfinal ⟨hs, hopen, ht⟩
    constructor
    · intro hlookup
      obtain ⟨composition, hcomposition, hkey, rfl⟩ := unicodeTableLookup_some hlookup
      obtain ⟨hfirst, hsecond⟩ := (compositionKey_eq hb).mp hkey
      exact .entry hnone hcomposition hfirst hsecond rfl
    · rintro (hc | ⟨-, hcomposition, rfl, rfl, rfl⟩)
      · exact absurd hc (hnone c)
      · rw [← (compositionKey_eq hb).mpr ⟨rfl, rfl⟩]
        exact h.lookup_composition hcomposition hvowel

/-- A pair of a code point below U+0300 composes to it again. -/
theorem UnicodeTables.Stable.unicodeComposite_low (h : tables.Stable) {entry : Nat}
    (hentry : entry ∈ tables.decompositions) (hlow : entryHigh entry < 0x300) :
    unicodeComposite tables (entryMiddle entry) (entryLow entry) = some (entryHigh entry) := by
  obtain ⟨hfirst, -, ⟨composition, hcomposition, hcode, hhigh, hmiddle⟩, -⟩ :=
    h.lowDecompositions entry hentry hlow
  rw [h.unicodeComposite_eq_some (entryLow_lt entry)]
  refine .entry (fun s hs => ?_) hcomposition hhigh hmiddle hcode
  rw [hangulComposite_iff, isHangulL_iff, isHangulS_iff] at hs
  omega

end Vsql.Unicode
