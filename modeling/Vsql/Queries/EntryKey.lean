import Vsql.Queries.RangeCovers

/-!
# Keys of several columns

The values of a key are written one after the other, so that the bytes sort like
the values are compared, column by column.  The length of each value can be found
from its bytes, which is how the row ID at the end of an index entry is found.
-/

namespace Vsql

open Foundation
open Foundation.OrderedCode

/-! ## The row ID of an entry -/

def outOfRange : Failure := .panic "array index out of range"

/-- The number of bytes up to the digit that ends a number. -/
def digitsLength (flip stop : UInt8) : Bytes → Except Failure Nat
  | [] => .error outOfRange
  | b :: rest => if b ^^^ flip = stop then .ok 1 else (· + 1) <$> digitsLength flip stop rest

def charactersLength (flip : UInt8) : Bytes → Except Failure Nat
  | [] => .error outOfRange
  | b :: rest =>
      if b ^^^ flip = 32 then
        match rest with
        | [] => .error outOfRange
        | c :: rest =>
            if c ^^^ flip = 1 then .ok 2 else (· + 2) <$> charactersLength flip rest
      else (· + 1) <$> charactersLength flip rest

/-- The number of bytes at the start of a key that a value was written in. -/
def keyValueLength (key : Bytes) (typ : SqlType) (flip : UInt8) : Except Failure Nat :=
  match typ with
  | .boolean => .ok 1
  | .smallint => .ok 2
  | .integer | .real => .ok 4
  | .bigint | .doublePrecision | .date | .timeWithTimeZone | .timeWithoutTimeZone
  | .timestampWithTimeZone | .timestampWithoutTimeZone => .ok 8
  | .numeric | .decimal =>
      match key with
      | [] => .error outOfRange
      | b :: _ =>
          let sign := b ^^^ flip
          if sign = 1 then .ok 1
          else (· + 3) <$> digitsLength flip (if sign = 0 then 255 else 0) (key.drop 3)
  | .character | .varchar => charactersLength flip key

def entryRowIdFrom : List KeyColumn → Bytes → Except Failure Bytes
  | [], key => .ok key
  | column :: columns, key =>
      let flip : UInt8 := if column.desc then 255 else 0
      match key with
      | [] => .error outOfRange
      | b :: key =>
          if b ^^^ flip = 0 then entryRowIdFrom columns key
          else do
            let n ← keyValueLength key column.typ.typ flip
            entryRowIdFrom columns (key.drop n)

/-- The row ID at the end of the key of an entry. -/
def entryRowId (indexId : Nat) (columns : List KeyColumn) (key : Bytes) :
    Except Failure Bytes :=
  entryRowIdFrom columns (key.drop (indexEntryPrefix indexId).length)

/-! ## The order of the values -/

/-- NULL is before any other value, and a DESC column is the other way around. -/
def compareColumn (tz : TimeZone) (column : KeyColumn) (x y : Value) :
    Except Failure CompareResult :=
  let result : Except Failure CompareResult :=
    if x.isNull then .ok (if y.isNull then .isEqual else .isLess)
    else if y.isNull then .ok .isGreater
    else Value.compare tz x y
  if column.desc then result.map CompareResult.swap else result

/-- The first column that is different decides. -/
def compareColumns (tz : TimeZone) :
    List KeyColumn → List Value → List Value → Except Failure CompareResult
  | column :: columns, x :: xs, y :: ys => do
      let result ← compareColumn tz column x y
      if result = .isEqual then compareColumns tz columns xs ys else pure result
  | _, _, _ => .ok .isEqual

/-- The result of a comparison of bytes. -/
def CompareResult.ofInt (x : Int) : CompareResult := Value.compareInts x 0

theorem compareBytes_swap (a b : Bytes) : compareBytes b a = -compareBytes a b := by
  induction a generalizing b with
  | nil => cases b <;> simp [compareBytes]
  | cons x a ih =>
      cases b with
      | nil => simp [compareBytes]
      | cons y b =>
          by_cases h : x = y
          · simp [compareBytes, h, ih]
          · simp [compareBytes, h, Ne.symm h]

theorem ofInt_compareBytes {c : CompareResult} {a b : Bytes} (h : Agrees c a b)
    (hc : c ≠ .isUnknown) : CompareResult.ofInt (compareBytes a b) = c := by
  unfold CompareResult.ofInt
  cases c with
  | isLess =>
      rw [Value.compareInts_eq_isLess, compareBytes_neg_iff]
      exact (h.1 rfl).lt
  | isEqual =>
      have hswap := compareBytes_swap b b
      rw [h.2.1 rfl, Value.compareInts_eq_isEqual]
      omega
  | isGreater =>
      have hneg := (compareBytes_neg_iff b a).mpr (h.2.2 rfl).lt
      rw [compareBytes_swap] at hneg
      rw [Value.compareInts_eq_isGreater]
      omega
  | isUnknown => exact absurd rfl hc

theorem Agrees.prepend {c : CompareResult} {a b : Bytes} (h : Agrees c a b) (p : Bytes) :
    Agrees c (p ++ a) (p ++ b) :=
  ⟨fun hc => (h.1 hc).prepend p, fun hc => by rw [h.2.1 hc],
    fun hc => (h.2.2 hc).prepend p⟩

theorem Agrees.append_both {c : CompareResult} {a b : Bytes} (h : Agrees c a b)
    (hc : c ≠ .isEqual) (s t : Bytes) : Agrees c (a ++ s) (b ++ t) :=
  ⟨fun hl => (h.1 hl).append s t, fun he => absurd he hc, fun hg => (h.2.2 hg).append t s⟩

theorem KeyColumn.agrees_part (column : KeyColumn) {c : CompareResult} {a b : Bytes}
    (h : Agrees c a b) :
    Agrees (if column.desc then c.swap else c) (column.part a) (column.part b) := by
  have hless : ∀ {a b : Bytes}, Before a b →
      if column.desc then Before (column.part b) (column.part a)
      else Before (column.part a) (column.part b) := fun hab => column.before_part hab
  cases hdesc : column.desc
  · simp only [hdesc, Bool.false_eq_true, if_false] at hless ⊢
    exact ⟨fun hc => hless (h.1 hc), fun hc => by rw [h.2.1 hc], fun hc => hless (h.2.2 hc)⟩
  · simp only [hdesc, if_true] at hless ⊢
    have hswap := h.swap
    exact ⟨fun hc => hless (hswap.1 hc), fun hc => by rw [hswap.2.1 hc],
      fun hc => hless (hswap.2.2 hc)⟩

section

variable (tz : TimeZone) {column : KeyColumn} {x y : Value}

theorem not_isNaN_of_exact (h : x.typ.typ.isApproximate = false) : x.isNaN = false := by
  unfold Value.isNaN
  split
  · next f hf =>
      have hfits := x.fits _ hf
      obtain htyp | ⟨htyp, -⟩ := hfits <;> simp [htyp, SqlType.isApproximate] at h
  · rfl

theorem KeyColumn.Has.nullable (h : column.Has x) (hnull : x.isNull = true) :
    column.nullable = true := by
  cases hnullable : column.nullable
  · rw [h.2 hnullable] at hnull
    cases hnull
  · rfl

theorem KeyColumn.agrees_null (column : KeyColumn) (hx : column.Has x) (hxnull : x.isNull = true)
    (hynull : y.isNull = false) :
    Agrees (if column.desc then .isGreater else .isLess) (column.valuePart x)
      (column.valuePart y) := by
  have hbefore : Before [(0 : UInt8)] (1 :: writeKeyValue y column.typ.typ) :=
    Before.of_heads (by decide) _ _
  rw [column.valuePart_of_not_isNull hynull]
  simp only [KeyColumn.valuePart, KeyColumn.part, hxnull, hx.nullable hxnull, and_self, if_true,
    List.singleton_append]
  split
  · exact ⟨by simp, by simp,
      fun _ => hbefore.map_of_reverses fun _ _ => complement_lt_complement⟩
  · exact ⟨fun _ => hbefore, by simp, by simp⟩

theorem compareColumn_ok (hexact : column.typ.typ.isApproximate = false)
    (hx : column.Has x) (hy : column.Has y) :
    ∃ c, compareColumn tz column x y = .ok c ∧ c ≠ .isUnknown ∧
      Agrees c (column.valuePart x) (column.valuePart y) := by
  cases hxnull : x.isNull <;> cases hynull : y.isNull
  · obtain ⟨-, hxtyp, hxscale⟩ := hx.1 hxnull
    obtain ⟨-, hytyp, hyscale⟩ := hy.1 hynull
    have hnan : ∀ z : Value, z.typ.typ = column.typ.typ → z.isNaN = false := fun z hz =>
      not_isNaN_of_exact (hz ▸ hexact)
    obtain ⟨c, hc, hknown⟩ := @exists_compare tz _ _ hxnull hynull (hxtyp.trans hytyp.symm)
    have hagrees := agrees_writeKeyValue hxnull hynull (hnan x hxtyp) (hnan y hytyp)
      (hxtyp.trans hytyp.symm)
      (fun hdec => (hxscale (hxtyp ▸ hdec)).trans (hyscale (hxtyp ▸ hdec)).symm) hc
    rw [hxtyp] at hagrees
    refine ⟨if column.desc then c.swap else c, ?_, ?_, ?_⟩
    · simp only [compareColumn, hxnull, hynull, hc, Bool.false_eq_true, if_false]
      split <;> rfl
    · split
      · cases c <;> simp_all [CompareResult.swap]
      · exact hknown
    · rw [column.valuePart_of_not_isNull hxnull, column.valuePart_of_not_isNull hynull]
      exact column.agrees_part hagrees
  · have hagrees := (column.agrees_null hy hynull hxnull).swap
    refine ⟨_, ?_, ?_, hagrees⟩
    · simp only [compareColumn, hxnull, hynull, Bool.false_eq_true, if_false, if_true]
      split <;> rfl
    · split <;> simp [CompareResult.swap]
  · refine ⟨_, ?_, ?_, column.agrees_null hx hxnull hynull⟩
    · simp only [compareColumn, hxnull, hynull, Bool.false_eq_true, if_false, if_true]
      split <;> rfl
    · split <;> simp
  · refine ⟨.isEqual, ?_, by simp, ?_⟩
    · simp only [compareColumn, hxnull, hynull, if_true]
      split <;> rfl
    · simp [KeyColumn.valuePart, hxnull, hynull, hx.nullable hxnull, Agrees]

/-- The keys of values of several columns. -/
theorem compareColumns_ok {columns : List KeyColumn} {xs ys : List Value}
    (hexact : ∀ column ∈ columns, column.typ.typ.isApproximate = false)
    (hxs : List.Forall₂ KeyColumn.Has columns xs) (hys : List.Forall₂ KeyColumn.Has columns ys) :
    ∃ c, compareColumns tz columns xs ys = .ok c ∧ c ≠ .isUnknown ∧
      Agrees c (keyParts (columns.zip xs)) (keyParts (columns.zip ys)) := by
  induction hxs generalizing ys with
  | nil =>
      cases hys
      exact ⟨.isEqual, rfl, by simp, by simp [Agrees]⟩
  | @cons column x columns xs hx hxs ih =>
      cases hys with
      | @cons _ y _ ys hy hys =>
      obtain ⟨c, hc, hknown, hagrees⟩ := compareColumn_ok tz (hexact column (by simp)) hx hy
      obtain ⟨c', hc', hknown', hagrees'⟩ := ih (fun c hmem => hexact c (by simp [hmem])) hys
      rw [compareColumns, hc]
      simp only [keyParts, List.zip_cons_cons, List.flatMap_cons]
      by_cases heq : c = .isEqual
      · refine ⟨c', ?_, hknown', ?_⟩
        · subst heq
          exact hc'
        · rw [hagrees.2.1 heq]
          exact hagrees'.prepend _
      · refine ⟨c, ?_, hknown, hagrees.append_both heq _ _⟩
        exact if_neg heq

end

/-! ## The length of a value -/

section

variable {f : UInt8 → UInt8} {flip : UInt8}

theorem digitsLength_append (hf : ∀ b, f b ^^^ flip = b) {stop : UInt8} {digits : Bytes}
    (hdigits : ∀ d ∈ digits, d ≠ stop) (rest : Bytes) :
    digitsLength flip stop ((digits ++ [stop]).map f ++ rest) = .ok (digits.length + 1) := by
  induction digits with
  | nil => simp [digitsLength, hf]
  | cons d digits ih =>
      have hne : d ≠ stop := hdigits d (by simp)
      have hrest := ih fun d hd => hdigits d (by simp [hd])
      simp only [List.cons_append, List.map_cons, digitsLength, hf, hne, if_false, hrest]
      rfl

theorem charactersLength_append (hf : ∀ b, f b ^^^ flip = b) (s rest : Bytes) :
    charactersLength flip ((writeKeyCharacters s).map f ++ rest) =
      .ok (writeKeyCharacters s).length := by
  induction s with
  | nil => simp [writeKeyCharacters, charactersLength, hf]
  | cons b s ih =>
      rw [writeKeyCharacters]
      by_cases hb : b = 32
      · have hmark : (if 32 < (s.dropWhile (· == 32)).headD 0 then (2 : UInt8) else 0) ≠ 1 := by
          split <;> decide
        simp only [hb, if_true, List.map_cons, List.cons_append, charactersLength, hf, hmark,
          if_false, ih, List.length_cons]
        rfl
      · rw [if_neg hb, List.map_cons, List.cons_append, charactersLength.eq_def]
        simp only [hf, hb, if_false, ih, List.length_cons]
        rfl

/-- The digits of a number end with the only byte that is zero. -/
theorem magnitudeKey_eq (places magnitude : Nat) :
    ∃ a b digits, magnitudeKey places magnitude = a :: b :: (digits ++ [0]) ∧
      ∀ d ∈ digits, d ≠ 0 := by
  have hlen : (writeKeyInteger ((decimal magnitude).length - places) 2).length = 2 :=
    length_bigEndian 2 _
  obtain ⟨a, b, hexponent⟩ := List.length_eq_two.mp hlen
  refine ⟨a, b, (dropZeros (decimal magnitude)).map fun d => UInt8.ofNat (d + 1), ?_, ?_⟩
  · rw [magnitudeKey, hexponent]
    simp [terminated]
  · intro d hd
    obtain ⟨e, he, rfl⟩ := List.mem_map.mp hd
    have hmem : e ∈ decimal magnitude := (prefix_dropZeros _).subset he
    have hlt := lt_of_mem_fixedWidth (show 0 < 10 by omega) hmem
    intro hzero
    have hnat := congrArg UInt8.toNat hzero
    simp only [UInt8.toNat_ofNat'] at hnat
    have : (0 : UInt8).toNat = 0 := rfl
    omega

theorem magnitudeLength_append (hf : ∀ b, f b ^^^ flip = b) {g : UInt8 → UInt8}
    (hg : ∀ b, g b = g 0 → b = 0) (sign : UInt8) (places magnitude : Nat) (rest : Bytes) :
    (· + 3) <$> digitsLength flip (g 0)
        ((((sign :: (magnitudeKey places magnitude).map g).map f) ++ rest).drop 3) =
      .ok (sign :: (magnitudeKey places magnitude).map g).length := by
  obtain ⟨a, b, digits, hkey, hdigits⟩ := magnitudeKey_eq places magnitude
  have hstop : ∀ d ∈ digits.map g, d ≠ g 0 := by
    intro d hd
    obtain ⟨e, he, rfl⟩ := List.mem_map.mp hd
    exact fun heq => hdigits e he (hg e heq)
  have hends := digitsLength_append hf hstop rest
  rw [hkey]
  simp only [List.map_cons, List.map_append, List.map_nil, List.cons_append, List.drop_succ_cons,
    List.drop_zero, List.length_cons, List.length_append, List.length_map, List.length_nil]
    at hends ⊢
  rw [hends]
  rfl

theorem numericLength_append (hf : ∀ b, f b ^^^ flip = b) {x : Numeric} {t : DataType}
    (hx : x.Fits t) (rest : Bytes) :
    keyValueLength ((writeKeyNumeric x).map f ++ rest) .numeric flip =
      .ok (writeKeyNumeric x).length := by
  obtain hneg | hzero | hpos := lt_trichotomy x.numerator 0
  · have hlength := magnitudeLength_append hf (g := (~~~ ·)) (fun _ => UInt8.not_inj.mp) 0
      (2 * x.typ.scale + 3) (keyMagnitude x) rest
    rw [writeKeyNumeric_of_neg hx hneg, ← hlength]
    simp only [keyValueLength, List.map_cons, List.cons_append, hf]
    rfl
  · rw [writeKeyNumeric_of_zero hzero]
    simp [keyValueLength, hf]
  · have hlength := magnitudeLength_append hf (g := id) (fun b hb => hb) 2
      (2 * x.typ.scale + 3) (keyMagnitude x) rest
    rw [List.map_id] at hlength
    rw [writeKeyNumeric_of_pos hx hpos, ← hlength]
    simp only [keyValueLength, List.map_cons, List.cons_append, hf]
    rfl

theorem keyValueLength_append (hf : ∀ b, f b ^^^ flip = b) {x : Value} {t : DataType}
    (hx : x.StoredAs t) (rest : Bytes) :
    keyValueLength ((writeKeyValue x t.typ).map f ++ rest) t.typ flip =
      .ok (writeKeyValue x t.typ).length := by
  obtain ⟨hnull, htyp, hscale⟩ := hx
  have hinteger : ∀ (n : Int) (size : Nat), (writeKeyInteger n size).length = size :=
    fun n size => length_bigEndian size _
  have hfloat : ∀ (n : F64) (size : Nat), (writeKeyFloat n size).length = size :=
    fun n size => length_bigEndian size _
  have hnumeric : t.typ.isExactDecimal → keyValueLength ((writeKeyNumeric x.numericValue).map f ++
      rest) .numeric flip = .ok (writeKeyNumeric x.numericValue).length := fun hdec =>
    numericLength_append hf (Value.numericValue_fits hnull (htyp ▸ hdec)) rest
  have htime : ∀ time : Time, (writeKeyTime time t.typ).length = 8 := by
    intro time
    unfold writeKeyTime
    split <;> exact hinteger _ _
  cases hkind : t.typ with
  | boolean => rfl
  | smallint | integer | bigint => simp [keyValueLength, writeKeyValue, hinteger]
  | real | doublePrecision => simp [keyValueLength, writeKeyValue, hfloat]
  | numeric | decimal =>
      rw [hkind] at hnumeric
      exact hnumeric rfl
  | character | varchar => exact charactersLength_append hf _ rest
  | date | timeWithTimeZone | timeWithoutTimeZone | timestampWithTimeZone
  | timestampWithoutTimeZone =>
      rw [hkind] at htime
      simp only [keyValueLength, writeKeyValue]
      split
      · rw [htime]
      · rw [hinteger]

end

/-! ## Splitting an entry -/

def KeyColumn.flip (column : KeyColumn) (b : UInt8) : UInt8 := if column.desc then ~~~b else b

theorem KeyColumn.flip_xor (column : KeyColumn) (b : UInt8) :
    column.flip b ^^^ (if column.desc then 255 else 0) = b := by
  have hones : (255 : UInt8) = -1 := rfl
  unfold KeyColumn.flip
  split
  · rw [hones, UInt8.xor_neg_one, UInt8.not_not]
  · rw [UInt8.xor_zero]

theorem KeyColumn.valuePart_eq (column : KeyColumn) (hnullable : column.nullable = true)
    (x : Value) :
    column.valuePart x =
      (if x.isNull then [0] else 1 :: writeKeyValue x column.typ.typ).map column.flip := by
  have hflip : column.flip = fun b => if column.desc then ~~~b else b := rfl
  rw [hflip]
  cases hnull : x.isNull <;> cases hdesc : column.desc <;>
    simp [KeyColumn.valuePart, KeyColumn.part, hnull, hdesc, hnullable]

theorem entryRowIdFrom_append {columns : List KeyColumn} {values : List Value}
    (h : List.Forall₂ KeyColumn.Has columns values)
    (hnullable : ∀ column ∈ columns, column.nullable = true) (rowId : Bytes) :
    entryRowIdFrom columns (keyParts (columns.zip values) ++ rowId) = .ok rowId := by
  induction h with
  | nil => rfl
  | @cons column x columns xs hx _ ih =>
      have hrest := ih fun c hc => hnullable c (by simp [hc])
      have hpart := column.valuePart_eq (hnullable column (by simp)) x
      simp only [keyParts, List.zip_cons_cons, List.flatMap_cons, List.append_assoc] at hrest ⊢
      rw [hpart]
      cases hnull : x.isNull
      · have hlength := keyValueLength_append column.flip_xor (hx.1 hnull)
          ((columns.zip xs).flatMap (fun c => c.1.valuePart c.2) ++ rowId)
        simp only [Bool.false_eq_true, if_false, List.map_cons, List.cons_append, entryRowIdFrom,
          column.flip_xor, show ¬(1 : UInt8) = 0 by decide, hlength]
        refine Eq.trans ?_ hrest
        show entryRowIdFrom columns (List.drop _ _) = _
        rw [← List.length_map column.flip, List.drop_left]
      · simp only [if_true, List.map_cons, List.map_nil, List.cons_append, List.nil_append,
          entryRowIdFrom, column.flip_xor]
        exact hrest

/-- The row ID is found where it was added. -/
theorem entryRowId_append {indexId : Nat} {columns : List KeyColumn} {values : List Value}
    (h : List.Forall₂ KeyColumn.Has columns values)
    (hnullable : ∀ column ∈ columns, column.nullable = true) (rowId : Bytes) :
    entryRowId indexId columns
        (indexEntryPrefix indexId ++ (keyParts (columns.zip values) ++ rowId)) = .ok rowId := by
  rw [entryRowId, List.drop_left]
  exact entryRowIdFrom_append h hnullable rowId

/-! ## The encoding keeps the order -/

theorem keyOrder_embeds (tz : TimeZone) {columns : List KeyColumn}
    (hexact : ∀ column ∈ columns, column.typ.typ.isApproximate = false) {xs ys : List Value}
    (hxs : List.Forall₂ KeyColumn.Has columns xs) (hys : List.Forall₂ KeyColumn.Has columns ys) :
    -- The bytes are in the order of the values.
    compareColumns tz columns xs ys =
        .ok (.ofInt (compareBytes (keyParts (columns.zip xs)) (keyParts (columns.zip ys)))) ∧
      (keyParts (columns.zip xs) = keyParts (columns.zip ys) →
        compareColumns tz columns xs ys = .ok .isEqual) ∧
      -- No value is the start of another one of its column.
      (∀ column ∈ columns, ∀ x y, column.Has x → column.Has y →
        column.valuePart x <+: column.valuePart y → column.valuePart x = column.valuePart y) ∧
      -- The lengths are found again.
      (∀ column ∈ columns, ∀ x, column.Has x → x.isNull = false → ∀ rest,
        keyValueLength ((writeKeyValue x column.typ.typ).map column.flip ++ rest)
          column.typ.typ (if column.desc then 255 else 0) =
            .ok (writeKeyValue x column.typ.typ).length) ∧
      ((∀ column ∈ columns, column.nullable = true) → ∀ indexId rowId,
        entryRowId indexId columns
          (indexEntryPrefix indexId ++ (keyParts (columns.zip xs) ++ rowId)) = .ok rowId) := by
  obtain ⟨c, hc, hknown, hagrees⟩ := compareColumns_ok tz hexact hxs hys
  have horder : compareColumns tz columns xs ys =
      .ok (.ofInt (compareBytes (keyParts (columns.zip xs)) (keyParts (columns.zip ys)))) := by
    rw [hc, ofInt_compareBytes hagrees hknown]
  refine ⟨horder, fun heq => ?_, fun column hcolumn x y hx hy hprefix => ?_,
    fun column _ x hx hnull rest => keyValueLength_append column.flip_xor (hx.1 hnull) rest,
    fun hnullable indexId rowId => entryRowId_append hxs hnullable rowId⟩
  · have hswap := compareBytes_swap (keyParts (columns.zip ys)) (keyParts (columns.zip ys))
    have hzero : compareBytes (keyParts (columns.zip ys)) (keyParts (columns.zip ys)) = 0 := by
      omega
    rw [horder, heq, hzero]
    rfl
  · obtain ⟨c, -, hknown, hagrees⟩ := compareColumn_ok tz (hexact column hcolumn) hx hy
    cases c with
    | isLess => exact absurd hprefix (hagrees.1 rfl).not_isPrefix
    | isEqual => exact hagrees.2.1 rfl
    | isGreater =>
        have hle := prefix_le hprefix
        exact absurd (hagrees.2.2 rfl).lt (not_lt.mpr hle)
    | isUnknown => exact absurd rfl hknown

/-- `(n DESC, b)`, where both columns can be NULL. -/
def descendingInteger : KeyColumn := ⟨{ typ := .integer }, true, true⟩

def nullableBoolean : KeyColumn := ⟨{ typ := .boolean }, true, false⟩

def integerValue (n : Int) (h : -2 ^ 31 ≤ n ∧ n < 2 ^ 31) : Value :=
  ⟨{ typ := .integer }, some (.int n), by
    rintro c ⟨⟩
    exact ⟨rfl, h⟩⟩

def booleanValue (b : Option Bool) : Value :=
  ⟨{ typ := .boolean }, b.map .bool, by
    rintro c hc
    obtain ⟨x, -, rfl⟩ := Option.map_eq_some_iff.mp hc
    exact rfl⟩

theorem has_integerValue (n : Int) (h : -2 ^ 31 ≤ n ∧ n < 2 ^ 31) :
    descendingInteger.Has (integerValue n h) :=
  ⟨fun _ => ⟨rfl, rfl, fun hdec => absurd hdec (by decide)⟩, fun _ => rfl⟩

theorem has_booleanValue (b : Option Bool) : nullableBoolean.Has (booleanValue b) :=
  ⟨fun hnull => ⟨hnull, rfl, fun hdec => absurd hdec (by decide)⟩,
    fun hnullable => absurd hnullable (by decide)⟩

/-- The first column is equal in both tuples, and the second is TRUE in one and NULL in the
other. -/
theorem keyOrder_embeds_descending :
    compareColumns noTimeZone [descendingInteger, nullableBoolean]
        [integerValue 5 (by decide), booleanValue (some true)]
        [integerValue 5 (by decide), booleanValue none] =
      .ok (.ofInt (compareBytes
        (keyParts [(descendingInteger, integerValue 5 (by decide)),
          (nullableBoolean, booleanValue (some true))])
        (keyParts [(descendingInteger, integerValue 5 (by decide)),
          (nullableBoolean, booleanValue none)]))) ∧
      keyValueLength ((writeKeyValue (booleanValue (some true)) .boolean).map
          nullableBoolean.flip ++ [1, 2, 3]) .boolean 0 =
        .ok (writeKeyValue (booleanValue (some true)) .boolean).length ∧
      entryRowId 7 [descendingInteger, nullableBoolean] (indexEntryPrefix 7 ++
        (keyParts [(descendingInteger, integerValue 5 (by decide)),
          (nullableBoolean, booleanValue (some true))] ++ [1, 2, 3])) = .ok [1, 2, 3] := by
  have hexact : ∀ column ∈ [descendingInteger, nullableBoolean],
      column.typ.typ.isApproximate = false := by
    simp [descendingInteger, nullableBoolean, SqlType.isApproximate]
  have hnullable : ∀ column ∈ [descendingInteger, nullableBoolean], column.nullable = true := by
    simp [descendingInteger, nullableBoolean]
  have hsecond : nullableBoolean ∈ [descendingInteger, nullableBoolean] := by simp
  obtain ⟨horder, -, -, hlength, hrowId⟩ := keyOrder_embeds noTimeZone hexact
    (.cons (has_integerValue 5 (by decide)) (.cons (has_booleanValue (some true)) .nil))
    (.cons (has_integerValue 5 (by decide)) (.cons (has_booleanValue none) .nil))
  exact ⟨horder, hlength _ hsecond _ (has_booleanValue _) rfl [1, 2, 3],
    hrowId hnullable 7 [1, 2, 3]⟩

end Vsql
