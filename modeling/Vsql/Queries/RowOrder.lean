import Vsql.Foundation.MergeSort
import Vsql.Foundation.Multiplicity
import Vsql.Queries.EntryKey
import Vsql.Queries.RangePlan

/-!
# Comparing rows

Rows are sorted by the values of their sort keys, and they are duplicates when all of their
values are equal.  Two NULLs are equal, and a NULL is before any other value.
-/

namespace Vsql

open Foundation
open Foundation.MergeSort
open Foundation.OrderedCode

variable {tz : TimeZone}

structure SortSpecification where
  isAsc : Bool

/-- One sort key of `sort_keys_cmp`, which continues with the next one after a zero. -/
def SortSpecification.cmp (spec : SortSpecification) (tz : TimeZone) (left right : Value) :
    Except Failure Int :=
  if left.isNull && right.isNull then .ok 0
  else if left.isNull && !right.isNull then .ok (if spec.isAsc then -1 else 1)
  else if !left.isNull && right.isNull then .ok (if spec.isAsc then 1 else -1)
  else do
    let cmp ← Value.compare tz left right
    if cmp = .isEqual then .ok 0
    else if cmp = .isLess then .ok (if spec.isAsc then -1 else 1)
    else .ok (if spec.isAsc then 1 else -1)

def sortKeysCmp (tz : TimeZone) :
    List Value → List Value → List SortSpecification → Except Failure Int
  | _, _, [] => .ok 0
  | l :: left, r :: right, spec :: specs => do
      let cmp ← spec.cmp tz l r
      if cmp = 0 then sortKeysCmp tz left right specs else .ok cmp
  | _, _, _ :: _ => .error outOfRange

def sortKeyLess (tz : TimeZone) (order : List SortSpecification) (a b : List Value) : Bool :=
  match sortKeysCmp tz a b order with
  | .ok cmp => cmp < 0
  | .error _ => false

/-- All of the sort keys can be compared with each other. -/
def Comparable (tz : TimeZone) (order : List SortSpecification) (K : Set (List Value)) : Prop :=
  ∀ a ∈ K, ∀ b ∈ K, ∃ cmp, sortKeysCmp tz a b order = .ok cmp

/-! ## Comparing the other way around -/

theorem SortSpecification.cmp_swap {spec : SortSpecification} {x y : Value} {cmp : Int}
    (h : spec.cmp tz x y = .ok cmp) : spec.cmp tz y x = .ok (-cmp) := by
  unfold SortSpecification.cmp at h ⊢
  cases hx : x.isNull <;> cases hy : y.isNull <;>
    simp only [hx, hy, Bool.and_self, Bool.not_true, Bool.not_false, Bool.and_true,
      Bool.and_false, Bool.false_eq_true, if_true, if_false] at h ⊢
  · obtain ⟨c, hc, h⟩ := ok_of_bind h
    have hknown := compare_ne_isUnknown hx hy hc
    rw [Value.compare_swap hc]
    cases c with
    | isUnknown => exact absurd rfl hknown
    | isLess | isEqual | isGreater =>
        rw [← Except.ok.inj h]
        cases spec.isAsc <;> rfl
  · rw [← Except.ok.inj h]
    cases spec.isAsc <;> rfl
  · rw [← Except.ok.inj h]
    cases spec.isAsc <;> rfl
  · rw [← Except.ok.inj h]
    rfl

theorem sortKeysCmp_cons {l r : Value} {left right : List Value} {spec : SortSpecification}
    {specs : List SortSpecification} {c : Int} (h : spec.cmp tz l r = .ok c) :
    sortKeysCmp tz (l :: left) (r :: right) (spec :: specs) =
      if c = 0 then sortKeysCmp tz left right specs else .ok c := by
  rw [sortKeysCmp, h]
  rfl

theorem sortKeysCmp_swap {order : List SortSpecification} {a b : List Value} {cmp : Int}
    (h : sortKeysCmp tz a b order = .ok cmp) : sortKeysCmp tz b a order = .ok (-cmp) := by
  induction a, b, order using sortKeysCmp.induct with
  | case1 a b =>
      rw [sortKeysCmp] at h ⊢
      rw [← Except.ok.inj h]
      rfl
  | case2 l left r right spec specs ih =>
      have hcons := h
      rw [sortKeysCmp] at hcons
      obtain ⟨c, hc, -⟩ := ok_of_bind hcons
      rw [sortKeysCmp_cons hc] at h
      rw [sortKeysCmp_cons (SortSpecification.cmp_swap hc)]
      simp only [neg_eq_zero]
      split_ifs at h ⊢
      · exact ih h
      · rw [← Except.ok.inj h]
  | case3 a b spec specs hnot =>
      rw [sortKeysCmp] at h
      · cases h
      · exact hnot

theorem asymmetric_sortKeyLess {order : List SortSpecification} {K : Set (List Value)}
    (h : Comparable tz order K) : Asymmetric (sortKeyLess tz order) K := by
  intro a ha b hb hless
  obtain ⟨cmp, hcmp⟩ := h a ha b hb
  unfold sortKeyLess at hless ⊢
  rw [hcmp] at hless
  rw [sortKeysCmp_swap hcmp]
  simp only [decide_eq_true_eq] at hless
  simpa using hless.le

/-! ## Values of one type -/

/-- Values of a type without NaN, which is equal to every number. -/
structure IsOrdered (t : DataType) (v : Value) : Prop where
  typ : v.typ = t
  notNaN : v.isNaN = false

/-- The bytes of a value in a key, which sort like the values. -/
def sortCode (v : Value) : WithBot Bytes :=
  if v.isNull then ⊥ else (writeKeyValue v v.typ.typ : Bytes)

/-- The comparison is that of the codes. -/
structure CodeCompares (spec : SortSpecification) (x y : Value) (cmp : Int) : Prop where
  less : cmp < 0 ↔ if spec.isAsc then sortCode x < sortCode y else sortCode y < sortCode x
  equal : cmp = 0 ↔ sortCode x = sortCode y

theorem codeCompares_of_agrees {spec : SortSpecification} {x y : Value} {c : CompareResult}
    (hx : x.isNull = false) (hy : y.isNull = false) (htyp : x.typ.typ = y.typ.typ)
    (hknown : c ≠ .isUnknown)
    (h : Agrees c (writeKeyValue x x.typ.typ) (writeKeyValue y x.typ.typ)) :
    CodeCompares spec x y
      (if c = .isEqual then 0
      else if c = .isLess then if spec.isAsc then -1 else 1
      else if spec.isAsc then 1 else -1) := by
  have hxcode : sortCode x = (writeKeyValue x x.typ.typ : Bytes) := by
    rw [sortCode, hx]
    rfl
  have hycode : sortCode y = (writeKeyValue y x.typ.typ : Bytes) := by
    rw [sortCode, hy, htyp]
    rfl
  cases c with
  | isUnknown => exact absurd rfl hknown
  | isLess =>
      have hlt := WithBot.coe_lt_coe.mpr (h.1 rfl).lt
      rw [← hxcode, ← hycode] at hlt
      cases hasc : spec.isAsc <;> constructor <;> simp [hasc, hlt, hlt.ne, hlt.not_gt]
  | isEqual =>
      have heq : sortCode x = sortCode y := by rw [hxcode, hycode, h.2.1 rfl]
      constructor <;> simp [heq]
  | isGreater =>
      have hlt := WithBot.coe_lt_coe.mpr (h.2.2 rfl).lt
      rw [← hxcode, ← hycode] at hlt
      cases hasc : spec.isAsc <;> constructor <;> simp [hasc, hlt, hlt.ne', hlt.not_gt]

theorem sortCode_of_isNull {v : Value} (h : v.isNull = true) : sortCode v = ⊥ := by
  rw [sortCode, h]
  rfl

theorem bot_lt_sortCode {v : Value} (h : v.isNull = false) : ⊥ < sortCode v := by
  rw [sortCode, h]
  exact WithBot.bot_lt_coe _

theorem exists_cmp {spec : SortSpecification} {t : DataType} {x y : Value}
    (hx : IsOrdered t x) (hy : IsOrdered t y) :
    ∃ cmp, spec.cmp tz x y = .ok cmp ∧ CodeCompares spec x y cmp := by
  have htyp : x.typ = y.typ := hx.typ.trans hy.typ.symm
  cases hxn : x.isNull <;> cases hyn : y.isNull
  · obtain ⟨c, hc, hknown⟩ := @exists_compare tz x y hxn hyn (by rw [htyp])
    have hagrees := agrees_writeKeyValue hxn hyn hx.notNaN hy.notNaN (by rw [htyp])
      (fun _ => by rw [htyp]) hc
    refine ⟨_, ?_, codeCompares_of_agrees hxn hyn (by rw [htyp]) hknown hagrees⟩
    simp only [SortSpecification.cmp, hxn, hyn, hc]
    cases c <;> rfl
  · refine ⟨if spec.isAsc then 1 else -1, by simp [SortSpecification.cmp, hxn, hyn], ?_⟩
    have hlt := bot_lt_sortCode hxn
    rw [← sortCode_of_isNull hyn] at hlt
    cases hasc : spec.isAsc <;> constructor <;> simp [hasc, hlt, hlt.ne', hlt.not_gt]
  · refine ⟨if spec.isAsc then -1 else 1, by simp [SortSpecification.cmp, hxn, hyn], ?_⟩
    have hlt := bot_lt_sortCode hyn
    rw [← sortCode_of_isNull hxn] at hlt
    cases hasc : spec.isAsc <;> constructor <;> simp [hasc, hlt, hlt.ne, hlt.not_gt]
  · refine ⟨0, by simp [SortSpecification.cmp, hxn, hyn], ?_⟩
    constructor <;> simp [sortCode_of_isNull hxn, sortCode_of_isNull hyn]

theorem CodeCompares.le_iff {spec : SortSpecification} {x y : Value} {cmp : Int}
    (h : CodeCompares spec x y cmp) : cmp ≤ 0 ↔
      if spec.isAsc then sortCode x ≤ sortCode y else sortCode y ≤ sortCode x := by
  have hless := h.less
  rw [Int.le_iff_lt_or_eq, h.equal]
  cases hasc : spec.isAsc <;> simp only [hasc, Bool.false_eq_true, if_true, if_false] at hless ⊢
  · rw [hless, le_iff_lt_or_eq, @eq_comm _ (sortCode y)]
  · rw [hless, le_iff_lt_or_eq]

/-- Two steps in order are only a step between equal values if they both are. -/
theorem CodeCompares.trans {spec : SortSpecification} {x y z : Value} {c c' c'' : Int}
    (hxy : CodeCompares spec x y c) (hyz : CodeCompares spec y z c')
    (hxz : CodeCompares spec x z c'') (hle : c ≤ 0) (hle' : c' ≤ 0) :
    c'' ≤ 0 ∧ (c'' = 0 ↔ c = 0 ∧ c' = 0) := by
  rw [hxy.le_iff] at hle
  rw [hyz.le_iff] at hle'
  rw [hxz.le_iff, hxz.equal, hxy.equal, hyz.equal]
  cases hasc : spec.isAsc <;>
    simp only [hasc, Bool.false_eq_true, if_true, if_false] at hle hle' ⊢
  · refine ⟨hle'.trans hle, fun h => ?_, fun h => h.1.trans h.2⟩
    have hyx : sortCode y = sortCode x := le_antisymm hle (h ▸ hle')
    exact ⟨hyx.symm, hyx.trans h⟩
  · refine ⟨hle.trans hle', fun h => ?_, fun h => h.1.trans h.2⟩
    have hyx : sortCode y = sortCode x := le_antisymm (h ▸ hle') hle
    exact ⟨hyx.symm, hyx.trans h⟩

/-- Sort keys with values of these types. -/
def OrderedKeys (types : List DataType) : Set (List Value) :=
  {key | List.Forall₂ IsOrdered types key}

theorem comparable_orderedKeys {types : List DataType} {order : List SortSpecification}
    (hlength : types.length = order.length) : Comparable tz order (OrderedKeys types) := by
  intro a ha b hb
  induction order generalizing types a b with
  | nil => exact ⟨0, by rw [sortKeysCmp]⟩
  | cons spec specs ih =>
      cases ha with
      | nil => cases hlength
      | cons hx ha =>
          obtain _ | ⟨hy, hb⟩ := hb
          obtain ⟨c, hc, -⟩ := @exists_cmp tz spec _ _ _ hx hy
          obtain ⟨rest, hrest⟩ := ih (by simpa using hlength) _ ha _ hb
          rw [sortKeysCmp_cons hc, hrest]
          split_ifs
          · exact ⟨rest, rfl⟩
          · exact ⟨c, rfl⟩

theorem sortKeysCmp_trans {types : List DataType} {order : List SortSpecification}
    (hlength : types.length = order.length)
    {a b c : List Value} (ha : a ∈ OrderedKeys types) (hb : b ∈ OrderedKeys types)
    (hc : c ∈ OrderedKeys types) {x y z : Int} (hab : sortKeysCmp tz a b order = .ok x)
    (hbc : sortKeysCmp tz b c order = .ok y) (hac : sortKeysCmp tz a c order = .ok z)
    (hx : x ≤ 0) (hy : y ≤ 0) : z ≤ 0 := by
  induction order generalizing types a b c x y z with
  | nil =>
      rw [sortKeysCmp] at hac
      rw [← Except.ok.inj hac]
  | cons spec specs ih =>
      cases ha with
      | nil => cases hlength
      | cons hxv ha =>
          obtain _ | ⟨hyv, hb⟩ := hb
          obtain _ | ⟨hzv, hc⟩ := hc
          obtain ⟨c, hcmp, hcode⟩ := @exists_cmp tz spec _ _ _ hxv hyv
          obtain ⟨c', hcmp', hcode'⟩ := @exists_cmp tz spec _ _ _ hyv hzv
          obtain ⟨c'', hcmp'', hcode''⟩ := @exists_cmp tz spec _ _ _ hxv hzv
          rw [sortKeysCmp_cons hcmp] at hab
          rw [sortKeysCmp_cons hcmp'] at hbc
          rw [sortKeysCmp_cons hcmp''] at hac
          have hle : ∀ {c x : Int} {rest : Except Failure Int},
              (if c = 0 then rest else .ok c) = .ok x → x ≤ 0 → c ≤ 0 := by
            intro c x rest h hx
            split_ifs at h with hzero
            · exact hzero.le
            · rwa [Except.ok.inj h]
          obtain ⟨hle'', hzero⟩ := hcode.trans hcode' hcode'' (hle hab hx) (hle hbc hy)
          by_cases hequal : c'' = 0
          · obtain ⟨hc0, hc0'⟩ := hzero.mp hequal
            rw [if_pos hc0] at hab
            rw [if_pos hc0'] at hbc
            rw [if_pos hequal] at hac
            exact ih (by simpa using hlength) ha hb hc hab hbc hac hx hy
          · rw [if_neg hequal] at hac
            rwa [← Except.ok.inj hac]

theorem negTransitive_orderedKeys {types : List DataType} {order : List SortSpecification}
    (hlength : types.length = order.length) :
    NegTransitive (sortKeyLess tz order) (OrderedKeys types) := by
  have hcomparable := @comparable_orderedKeys tz types order hlength
  intro a ha b hb c hc hba hcb
  obtain ⟨x, hx⟩ := hcomparable a ha b hb
  obtain ⟨y, hy⟩ := hcomparable b hb c hc
  obtain ⟨z, hz⟩ := hcomparable a ha c hc
  rw [sortKeyLess, sortKeysCmp_swap hx] at hba
  rw [sortKeyLess, sortKeysCmp_swap hy] at hcb
  rw [sortKeyLess, sortKeysCmp_swap hz]
  have hle := sortKeysCmp_trans hlength ha hb hc hx hy hz (by simpa using hba) (by simpa using hcb)
  simpa using hle

/-! ## Duplicates -/

def isDuplicateRow (tz : TimeZone) : List Value → List Value → Except Failure Bool
  | [], _ => .ok true
  | _ :: _, [] => .error outOfRange
  | value :: a, other :: b =>
      if value.isNull || other.isNull then
        if value.isNull != other.isNull then .ok false else isDuplicateRow tz a b
      else do
        let cmp ← Value.compare tz value other
        if cmp ≠ .isEqual then .ok false else isDuplicateRow tz a b

def rowEqual (tz : TimeZone) (a b : List Value) : Bool :=
  match isDuplicateRow tz a b with
  | .ok equal => equal
  | .error _ => false

/-- All of the rows can be compared with each other. -/
def RowsComparable (tz : TimeZone) (K : Set (List Value)) : Prop :=
  ∀ a ∈ K, ∀ b ∈ K, ∃ equal, isDuplicateRow tz a b = .ok equal

theorem isDuplicateRow_comm {a b : List Value} {equal : Bool} (hlength : a.length = b.length)
    (h : isDuplicateRow tz a b = .ok equal) : isDuplicateRow tz b a = .ok equal := by
  induction a generalizing b with
  | nil =>
      rw [List.length_eq_zero_iff.mp hlength.symm]
      exact h
  | cons value a ih =>
      cases b with
      | nil => cases hlength
      | cons other b =>
          have hrest := @ih b (by simpa using hlength)
          rw [isDuplicateRow] at h ⊢
          rw [Bool.or_comm, bne_comm]
          by_cases hnull : (value.isNull || other.isNull) = true
          · rw [if_pos hnull] at h ⊢
            split_ifs at h ⊢
            · exact h
            · exact hrest h
          · rw [if_neg hnull] at h ⊢
            obtain ⟨c, hc, h⟩ := ok_of_bind h
            rw [Value.compare_swap hc]
            change (if c.swap ≠ .isEqual then _ else _) = _
            have hswap : c.swap ≠ .isEqual ↔ c ≠ .isEqual := by
              cases c <;> simp [CompareResult.swap]
            simp only [hswap]
            split_ifs at h ⊢
            · exact h
            · exact hrest h

theorem isDuplicateRow_self {a : List Value} {equal : Bool}
    (h : isDuplicateRow tz a a = .ok equal) : equal = true := by
  induction a with
  | nil => exact (Except.ok.inj h).symm
  | cons value a ih =>
      rw [isDuplicateRow, Bool.or_self] at h
      cases hnull : value.isNull with
      | true =>
          rw [hnull, if_pos rfl, if_neg (by simp)] at h
          exact ih h
      | false =>
          rw [hnull, if_neg (by simp)] at h
          obtain ⟨c, hc, h⟩ := ok_of_bind h
          have hself : c.swap = c := Except.ok.inj ((Value.compare_swap hc).symm.trans hc)
          have hequal : c = .isEqual := by
            have hknown := compare_ne_isUnknown hnull hnull hc
            cases c <;> simp_all [CompareResult.swap]
          rw [if_neg (by simp [hequal])] at h
          exact ih h

/-- Equality of rows, which is transitive unless there are NaNs. -/
def EqualityTransitive (tz : TimeZone) (K : Set (List Value)) : Prop :=
  ∀ a ∈ K, ∀ b ∈ K, ∀ c ∈ K,
    rowEqual tz a b = true → rowEqual tz b c = true → rowEqual tz a c = true

theorem isEquivalence_rowEqual {K : Set (List Value)} {n : Nat}
    (hlength : ∀ a ∈ K, a.length = n) (h : RowsComparable tz K)
    (htrans : EqualityTransitive tz K) : IsEquivalence (rowEqual tz) K where
  refl a ha := by
    obtain ⟨equal, hequal⟩ := h a ha a ha
    rw [rowEqual, hequal]
    exact isDuplicateRow_self hequal
  symm a ha b hb hab := by
    obtain ⟨equal, hequal⟩ := h a ha b hb
    rw [rowEqual, hequal] at hab
    rw [rowEqual, isDuplicateRow_comm ((hlength a ha).trans (hlength b hb).symm) hequal]
    exact hab
  trans := htrans

/-! ## Sorting and equality agree -/

theorem isDuplicateRow_cons (spec : SortSpecification) (x y : Value) (a b : List Value) :
    isDuplicateRow tz (x :: a) (y :: b) =
      spec.cmp tz x y >>= fun cmp => if cmp = 0 then isDuplicateRow tz a b else .ok false := by
  have hsign : ∀ isLess : Bool, (if isLess then if spec.isAsc then -1 else 1
      else if spec.isAsc then 1 else -1 : Int) ≠ 0 := by
    intro isLess
    cases isLess <;> cases spec.isAsc <;> decide
  rw [isDuplicateRow, SortSpecification.cmp]
  cases hx : x.isNull <;> cases hy : y.isNull
  · simp only [Bool.or_self, Bool.and_self, Bool.not_false, Bool.and_false, Bool.false_eq_true,
      if_false]
    cases Value.compare tz x y with
    | error e => rfl
    | ok c => cases c <;> cases spec.isAsc <;> rfl
  · cases spec.isAsc <;> rfl
  · cases spec.isAsc <;> rfl
  · rfl

/-- Rows are duplicates when sorting them does not tell them apart. -/
theorem isDuplicateRow_eq_map {order : List SortSpecification} {a b : List Value}
    (ha : a.length = order.length) (hb : b.length = order.length) :
    isDuplicateRow tz a b = (sortKeysCmp tz a b order).map (· == 0) := by
  induction order generalizing a b with
  | nil =>
      rw [List.length_eq_zero_iff.mp ha]
      rfl
  | cons spec specs ih =>
      obtain ⟨x, a, rfl⟩ := List.exists_cons_of_length_eq_add_one ha
      obtain ⟨y, b, rfl⟩ := List.exists_cons_of_length_eq_add_one hb
      rw [isDuplicateRow_cons spec, sortKeysCmp]
      cases spec.cmp tz x y with
      | error e => rfl
      | ok c =>
          change (if c = 0 then isDuplicateRow tz a b else .ok false) =
            Except.map _ (if c = 0 then _ else .ok c)
          split_ifs with hzero
          · exact ih (by simpa using ha) (by simpa using hb)
          · simp [Except.map, hzero]

section Agreement

variable {order : List SortSpecification} {K : Set (List Value)}

theorem rowsComparable_iff (hlength : ∀ a ∈ K, a.length = order.length) :
    RowsComparable tz K ↔ Comparable tz order K := by
  have hiff : ∀ a ∈ K, ∀ b ∈ K, (∃ equal, isDuplicateRow tz a b = .ok equal) ↔
      ∃ cmp, sortKeysCmp tz a b order = .ok cmp := by
    intro a ha b hb
    rw [isDuplicateRow_eq_map (hlength a ha) (hlength b hb)]
    cases sortKeysCmp tz a b order with
    | error e => simp [Except.map]
    | ok c => simp [Except.map]
  exact ⟨fun h a ha b hb => (hiff a ha b hb).mp (h a ha b hb),
    fun h a ha b hb => (hiff a ha b hb).mpr (h a ha b hb)⟩

theorem rowEqual_iff (hlength : ∀ a ∈ K, a.length = order.length) (hK : Comparable tz order K)
    {a b : List Value} (ha : a ∈ K) (hb : b ∈ K) : rowEqual tz a b = true ↔
      sortKeyLess tz order a b = false ∧ sortKeyLess tz order b a = false := by
  obtain ⟨c, hc⟩ := hK a ha b hb
  rw [rowEqual, isDuplicateRow_eq_map (hlength a ha) (hlength b hb), sortKeyLess, sortKeyLess, hc,
    sortKeysCmp_swap hc]
  simp only [Except.map, beq_iff_eq, decide_eq_false_iff_not]
  omega

theorem equalityTransitive_of_negTransitive (hlength : ∀ a ∈ K, a.length = order.length)
    (hK : Comparable tz order K) (h : NegTransitive (sortKeyLess tz order) K) :
    EqualityTransitive tz K := by
  intro a ha b hb c hc hab hbc
  rw [rowEqual_iff hlength hK ha hb] at hab
  rw [rowEqual_iff hlength hK hb hc] at hbc
  rw [rowEqual_iff hlength hK ha hc]
  exact ⟨h c hc b hb a ha hbc.1 hab.1, h a ha b hb c hc hab.2 hbc.2⟩

end Agreement

end Vsql
