import Vsql.Foundation.ByteFile
import Vsql.Foundation.Runs

/-!
# GetData

A character value is retrieved in pieces by calling GetData again for the same column.  The code
remembers the column by a negative number and counts with an `int`.  It is compared with a
retrieval that has the column and the number of octets that were retrieved.
-/

namespace Vsql.Cli

open Foundation

/-! ## The calls -/

structure CliError where
  sqlstate : String
  message : String
  deriving DecidableEq

/-- The length of a string is an `int`. -/
abbrev CharacterString := {s : Bytes // s.length < 2 ^ 31}

/-- The C types that a column is retrieved as. -/
inductive CType where
  | varchar
  | number
  deriving DecidableEq

/-- A value of a row, and what `cast_value` makes of it. -/
structure ColumnValue where
  isNull : Bool
  asString : Except CliError CharacterString
  asNumber : Except CliError Unit

/-- The values of the current row by the number of the column, and what GetData remembers. -/
structure Stmt where
  row : Nat → ColumnValue
  fetchedColumn : Int
  fetchedLength : Int32
  fetchedValue : CharacterString

structure GetDataCall where
  columnNumber : Nat
  /-- The C type, if the cursor, its position and the descriptors pass their checks. -/
  checked : Except CliError CType
  bufferLength : Int32
  nullTermination : Bool
  /-- The pointer for the length or the indicator is not null. -/
  hasIndicator : Bool

/-- The octets that fit into the buffer, less the null terminator. -/
def GetDataCall.room (c : GetDataCall) : Int :=
  if c.nullTermination then c.bufferLength.toInt - 1 else c.bufferLength.toInt

inductive GetDataRequest where
  | getData (call : GetDataCall)
  /-- A move of the cursor to a row. -/
  | move (row : Nat → ColumnValue)

inductive GetDataResult where
  | error (e : CliError)
  | panic
  | null
  | number
  /-- The octets that are copied, the returned length and whether there is a 01004. -/
  | piece (octets : Bytes) (returnedLength : Nat) (truncated : Bool)
  | moved
  deriving DecidableEq

def invalidLength : CliError := ⟨"HY090", "invalid string length or buffer length"⟩

def invalidIndex : CliError := ⟨"07009", "invalid descriptor index"⟩

def noIndicator : CliError := ⟨"22002", "null value, no indicator parameter"⟩

/-- `retrieve_string` and `copy_c_string`. -/
def retrieveString (c : GetDataCall) (value : Bytes) : Except CliError (Bytes × Nat × Bool) :=
  if c.bufferLength < 0 ∨ c.bufferLength = 0 ∧ c.nullTermination then .error invalidLength
  else
    let n := if (value.length : Int) ≤ c.room then value.length else c.room.toNat
    .ok (value.take n, value.length, n ≠ value.length)

/-- A slice that is not within the string ends the process. -/
def retrievePiece (s : Stmt) (c : GetDataCall) : GetDataResult × Stmt :=
  if s.fetchedLength < 0 ∨ s.fetchedLength.toInt > s.fetchedValue.1.length then (.panic, s)
  else
    match retrieveString c (s.fetchedValue.1.drop s.fetchedLength.toInt.toNat) with
    | .error e => (.error e, s)
    | .ok (octets, returnedLength, truncated) =>
        let fetchedLength := s.fetchedLength + .ofInt c.room
        (.piece octets returnedLength truncated,
          { s with
            fetchedLength := fetchedLength
            fetchedColumn :=
              if fetchedLength.toInt < s.fetchedValue.1.length then -c.columnNumber
              else c.columnNumber })

/-- A value that is retrieved from its beginning. -/
def retrieveValue (s : Stmt) (c : GetDataCall) (typ : CType) : GetDataResult × Stmt :=
  let value := s.row c.columnNumber
  let s := { s with fetchedColumn := c.columnNumber }
  if value.isNull then (if c.hasIndicator then .null else .error noIndicator, s)
  else
    match typ with
    | .varchar =>
        match value.asString with
        | .error e => (.error e, s)
        | .ok v => retrievePiece { s with fetchedValue := v, fetchedLength := 0 } c
    | .number =>
        match value.asNumber with
        | .error e => (.error e, s)
        | .ok () => (.number, s)

def getData (columns : Nat) (s : Stmt) (c : GetDataCall) : GetDataResult × Stmt :=
  if c.columnNumber < 1 ∨ columns < c.columnNumber then (.error invalidIndex, s)
  else
    match c.checked with
    | .error e => (.error e, s)
    | .ok typ =>
        if s.fetchedColumn < 0 then
          let continued := { s with fetchedColumn := -s.fetchedColumn }
          if (c.columnNumber : Int) = continued.fetchedColumn then
            if typ ≠ .varchar then (.error invalidIndex, continued) else retrievePiece continued c
          else retrieveValue continued c typ
        else retrieveValue s c typ

def Stmt.respond (columns : Nat) (s : Stmt) : GetDataRequest → GetDataResult × Stmt
  | .getData c => getData columns s c
  | .move row => (.moved, { s with row := row, fetchedColumn := 0 })

def statement (columns : Nat) : Machine Stmt GetDataRequest GetDataResult :=
  ⟨Stmt.respond columns⟩

/-- After FETCH. -/
def Stmt.fetched (row : Nat → ColumnValue) : Stmt := ⟨row, 0, 0, ⟨[], by decide⟩⟩

/-! ## Retrievals -/

/-- The current row, and the column that is being retrieved with the number of octets that were
retrieved. -/
structure Retrieval where
  row : Nat → ColumnValue
  begun : Option (Nat × Nat)

/-- The octets of `v` from `k` on that fit into the buffer. -/
def pieceFrom (c : GetDataCall) (v : Bytes) (k : Nat) : GetDataResult :=
  if c.room < 0 then .error invalidLength
  else .piece ((v.drop k).take c.room.toNat) (v.length - k) (c.room.toNat < v.length - k)

/-- What is left after that piece. -/
def begunAfter (c : GetDataCall) (v : Bytes) (k : Nat) : Option (Nat × Nat) :=
  if 0 ≤ c.room ∧ c.room.toNat < v.length - k then some (c.columnNumber, k + c.room.toNat) else none

namespace Retrieval

def start (r : Retrieval) (c : GetDataCall) (typ : CType) : GetDataResult × Retrieval :=
  let value := r.row c.columnNumber
  let ended := { r with begun := none }
  if value.isNull then (if c.hasIndicator then .null else .error noIndicator, ended)
  else
    match typ with
    | .varchar =>
        match value.asString with
        | .error e => (.error e, ended)
        | .ok v => (pieceFrom c v.1 0, { r with begun := begunAfter c v.1 0 })
    | .number =>
        match value.asNumber with
        | .error e => (.error e, ended)
        | .ok () => (.number, ended)

def continued (r : Retrieval) (c : GetDataCall) (typ : CType) (k : Nat) :
    GetDataResult × Retrieval :=
  match typ with
  | .number => (.error invalidIndex, { r with begun := none })
  | .varchar =>
      match (r.row c.columnNumber).asString with
      | .error e => (.error e, { r with begun := none })
      | .ok v => (pieceFrom c v.1 k, { r with begun := begunAfter c v.1 k })

def respond (columns : Nat) (r : Retrieval) : GetDataRequest → GetDataResult × Retrieval
  | .getData c =>
      if c.columnNumber < 1 ∨ columns < c.columnNumber then (.error invalidIndex, r)
      else
        match c.checked, r.begun with
        | .error e, _ => (.error e, r)
        | .ok typ, some (column, k) =>
            if c.columnNumber = column then r.continued c typ k else r.start c typ
        | .ok typ, none => r.start c typ
  | .move row => (.moved, ⟨row, none⟩)

end Retrieval

def retrieval (columns : Nat) : Machine Retrieval GetDataRequest GetDataResult :=
  ⟨Retrieval.respond columns⟩

/-! ## Pieces -/

variable {columns : Nat} {s : Stmt} {r : Retrieval} {c : GetDataCall}

theorem rejected_iff : (c.bufferLength < 0 ∨ c.bufferLength = 0 ∧ c.nullTermination = true) ↔
    c.room < 0 := by
  have hzero : (0 : Int32).toInt = 0 := rfl
  unfold GetDataCall.room
  rw [Int32.lt_iff_toInt_lt, ← Int32.toInt_inj, hzero]
  cases c.nullTermination with
  | true =>
      simp only [and_true, if_true]
      omega
  | false => simp

theorem retrieveString_eq (value : Bytes) : retrieveString c value =
    if c.room < 0 then .error invalidLength
    else .ok (value.take c.room.toNat, value.length, c.room.toNat < value.length) := by
  unfold retrieveString
  simp only [rejected_iff]
  split
  · rfl
  · rename_i hroom
    congr 1
    split
    · rename_i hfits
      have hlarge : value.length ≤ c.room.toNat := by omega
      simp [List.take_of_length_le hlarge, hlarge]
    · rename_i hfits
      have hsmall : c.room.toNat < value.length := by omega
      simp [hsmall, Nat.ne_of_lt hsmall]

theorem room_lt : c.room < 2 ^ 31 := by
  have hmax := c.bufferLength.toInt_lt
  unfold GetDataCall.room
  split <;> omega

theorem toInt_add_room (hroom : 0 ≤ c.room) (hlow : 0 ≤ s.fetchedLength.toInt)
    (hfits : s.fetchedLength.toInt + c.room < 2 ^ 31) :
    (s.fetchedLength + .ofInt c.room).toInt = s.fetchedLength.toInt + c.room := by
  have hofInt : (Int32.ofInt c.room).toInt = c.room :=
    Int32.toInt_ofInt_of_le (by omega) (by omega)
  rw [Int32.toInt_add, hofInt, Int.bmod_eq_of_le] <;> omega

/-- The statement has retrieved what the retrieval has. -/
structure Related (columns : Nat) (s : Stmt) (r : Retrieval) : Prop where
  row : s.row = r.row
  ended : r.begun = none → 0 ≤ s.fetchedColumn
  begun : ∀ column k, r.begun = some (column, k) →
    1 ≤ column ∧ column ≤ columns ∧ s.fetchedColumn = -column ∧ s.fetchedLength.toInt = k ∧
      k < s.fetchedValue.1.length ∧ (s.row column).asString = .ok s.fetchedValue

theorem retrievePiece_fst (hlow : 0 ≤ s.fetchedLength.toInt)
    (hhigh : s.fetchedLength.toInt ≤ s.fetchedValue.1.length) :
    (retrievePiece s c).1 = pieceFrom c s.fetchedValue.1 s.fetchedLength.toInt.toNat := by
  have hzero : (0 : Int32).toInt = 0 := rfl
  have hrange : ¬(s.fetchedLength < 0 ∨ s.fetchedLength.toInt > s.fetchedValue.1.length) := by
    rw [Int32.lt_iff_toInt_lt, hzero]
    omega
  unfold retrievePiece pieceFrom
  rw [if_neg hrange, retrieveString_eq, List.length_drop]
  by_cases hroom : c.room < 0
  · simp only [if_pos hroom]
  · simp only [if_neg hroom]

/-- The state after a piece that is accepted. -/
theorem retrievePiece_snd (hlow : 0 ≤ s.fetchedLength.toInt)
    (hhigh : s.fetchedLength.toInt ≤ s.fetchedValue.1.length) :
    (retrievePiece s c).2 =
      if c.room < 0 then s
      else
        { s with
          fetchedLength := s.fetchedLength + .ofInt c.room
          fetchedColumn :=
            if (s.fetchedLength + .ofInt c.room).toInt < s.fetchedValue.1.length then
              -c.columnNumber
            else c.columnNumber } := by
  have hzero : (0 : Int32).toInt = 0 := rfl
  have hrange : ¬(s.fetchedLength < 0 ∨ s.fetchedLength.toInt > s.fetchedValue.1.length) := by
    rw [Int32.lt_iff_toInt_lt, hzero]
    omega
  unfold retrievePiece
  rw [if_neg hrange, retrieveString_eq]
  by_cases hroom : c.room < 0
  · simp only [if_pos hroom]
  · simp only [if_neg hroom]

/-- A piece that is counted with an `int` without going past it. -/
theorem retrievePiece_related (hcolumn : 1 ≤ c.columnNumber) (hcolumns : c.columnNumber ≤ columns)
    (hfetched : 0 ≤ s.fetchedColumn) (hlow : 0 ≤ s.fetchedLength.toInt)
    (hhigh : s.fetchedLength.toInt ≤ s.fetchedValue.1.length)
    (hvalue : (s.row c.columnNumber).asString = .ok s.fetchedValue)
    (hfits : s.fetchedLength.toInt + c.room < 2 ^ 31) :
    Related columns (retrievePiece s c).2
      ⟨s.row, begunAfter c s.fetchedValue.1 s.fetchedLength.toInt.toNat⟩ := by
  rw [retrievePiece_snd hlow hhigh]
  unfold begunAfter
  by_cases hroom : c.room < 0
  · rw [if_pos hroom]
    refine ⟨rfl, fun _ => hfetched, ?_⟩
    intro column k hbegun
    rw [if_neg (by omega)] at hbegun
    cases hbegun
  · have hsum := toInt_add_room (Int.not_lt.1 hroom) hlow hfits
    simp only [if_neg hroom, hsum]
    refine ⟨rfl, ?_, ?_⟩
    · intro hbegun
      have hless : ¬s.fetchedLength.toInt + c.room < s.fetchedValue.1.length := by
        intro hmore
        rw [if_pos (by omega)] at hbegun
        cases hbegun
      rw [if_neg hless]
      exact Int.natCast_nonneg _
    · intro column k hbegun
      split at hbegun
      · rename_i hmore
        cases hbegun
        rw [if_pos (by omega)]
        refine ⟨hcolumn, hcolumns, rfl, ?_, ?_, hvalue⟩
        · rw [hsum]
          omega
        · show s.fetchedLength.toInt.toNat + c.room.toNat < s.fetchedValue.1.length
          omega
      · cases hbegun

/-- What a call has to meet: the octets that were retrieved and the room for more of them are less
than 2^31. -/
def Stmt.Fits (s : Stmt) : GetDataRequest → Prop
  | .getData c =>
      s.fetchedColumn < 0 → s.fetchedColumn = -c.columnNumber → c.checked = .ok .varchar →
        s.fetchedLength.toInt + c.room < 2 ^ 31
  | .move _ => True

theorem Related.ofEnded {column : Int} (hcolumn : 0 ≤ column) :
    Related columns { s with fetchedColumn := column } ⟨s.row, none⟩ := by
  refine ⟨rfl, fun _ => hcolumn, ?_⟩
  rintro column k ⟨⟩

theorem retrieveValue_related (h : s.row = r.row) (hcolumn : 1 ≤ c.columnNumber)
    (hcolumns : c.columnNumber ≤ columns) (typ : CType) :
    (retrieveValue s c typ).1 = (r.start c typ).1 ∧
      Related columns (retrieveValue s c typ).2 (r.start c typ).2 := by
  have hended : Related columns { s with fetchedColumn := c.columnNumber } ⟨s.row, none⟩ :=
    .ofEnded (Int.natCast_nonneg _)
  unfold retrieveValue Retrieval.start
  rw [← h]
  dsimp only
  split
  · exact ⟨rfl, hended⟩
  · cases typ with
    | number =>
        cases (s.row c.columnNumber).asNumber with
        | error e => exact ⟨rfl, hended⟩
        | ok u => exact ⟨rfl, hended⟩
    | varchar =>
        cases hvalue : (s.row c.columnNumber).asString with
        | error e => exact ⟨rfl, hended⟩
        | ok v =>
            have hroom := room_lt (c := c)
            let first : Stmt :=
              { s with fetchedColumn := c.columnNumber, fetchedValue := v, fetchedLength := 0 }
            have hlength : first.fetchedLength.toInt = 0 := rfl
            have hfits : first.fetchedLength.toInt + c.room < 2 ^ 31 := by
              rw [hlength]
              omega
            have hlow : 0 ≤ first.fetchedLength.toInt := Int.le_of_eq hlength.symm
            have hhigh : first.fetchedLength.toInt ≤ v.1.length := Int.natCast_nonneg _
            exact ⟨retrievePiece_fst (s := first) hlow hhigh,
              retrievePiece_related (s := first) hcolumn hcolumns (Int.natCast_nonneg _) hlow hhigh
                hvalue hfits⟩

/-- One request is answered as the retrieval answers it. -/
theorem respond_related (h : Related columns s r) (request : GetDataRequest) :
    (s.respond columns request).1 = (r.respond columns request).1 ∧
      (s.Fits request →
        Related columns (s.respond columns request).2 (r.respond columns request).2) := by
  cases request with
  | move row =>
      refine ⟨rfl, fun _ => ⟨rfl, fun _ => Int.le_refl 0, ?_⟩⟩
      rintro column k ⟨⟩
  | getData c =>
      simp only [Stmt.respond, getData, Retrieval.respond]
      split
      · exact ⟨rfl, fun _ => h⟩
      · rename_i hvalid
        have hcolumn : 1 ≤ c.columnNumber := by omega
        have hcolumns : c.columnNumber ≤ columns := by omega
        cases hchecked : c.checked with
        | error e => exact ⟨rfl, fun _ => h⟩
        | ok typ =>
            cases hbegun : r.begun with
            | none =>
                have hended := h.ended hbegun
                obtain ⟨hresult, hrelated⟩ := retrieveValue_related h.row hcolumn hcolumns typ
                simp only [if_neg (Int.not_lt.2 hended)]
                exact ⟨hresult, fun _ => hrelated⟩
            | some p =>
                obtain ⟨column, k⟩ := p
                obtain ⟨hpos, -, hnegative, hk, hlt, hvalue⟩ := h.begun column k hbegun
                have hcontinued : -s.fetchedColumn = column := by omega
                simp only [if_pos (show s.fetchedColumn < 0 by omega), hcontinued,
                  Int.natCast_inj]
                by_cases hsame : c.columnNumber = column
                · subst hsame
                  simp only [if_true]
                  cases typ with
                  | number =>
                      simp only [Retrieval.continued, ← h.row]
                      exact ⟨rfl, fun _ => .ofEnded (Int.natCast_nonneg _)⟩
                  | varchar =>
                      let next : Stmt := { s with fetchedColumn := c.columnNumber }
                      have hk' : next.fetchedLength.toInt.toNat = k := by
                        show s.fetchedLength.toInt.toNat = k
                        omega
                      have hlow : 0 ≤ next.fetchedLength.toInt := by
                        show 0 ≤ s.fetchedLength.toInt
                        omega
                      have hhigh : next.fetchedLength.toInt ≤ next.fetchedValue.1.length := by
                        show s.fetchedLength.toInt ≤ s.fetchedValue.1.length
                        omega
                      have hpiece := retrievePiece_fst (c := c) hlow hhigh
                      simp only [Retrieval.continued, ← h.row, hvalue, ne_eq, not_true_eq_false,
                        if_false]
                      rw [hk'] at hpiece
                      refine ⟨hpiece, fun hfits => ?_⟩
                      have hfits := hfits (by omega) (by omega) hchecked
                      have hrelated := retrievePiece_related (s := next) hpos hcolumns
                        (Int.natCast_nonneg _) hlow hhigh hvalue hfits
                      rw [hk'] at hrelated
                      exact hrelated
                · obtain ⟨hresult, hrelated⟩ :=
                    retrieveValue_related (c := c) (s := { s with fetchedColumn := column }) h.row
                      hcolumn hcolumns typ
                  simp only [if_neg hsame]
                  exact ⟨hresult, fun _ => hrelated⟩

theorem pieceFrom_ne_panic (v : Bytes) (k : Nat) : pieceFrom c v k ≠ .panic := by
  unfold pieceFrom
  split <;> simp

/-! ## Whole values -/

/-- The octets of the pieces. -/
def GetDataResult.octets : GetDataResult → Bytes
  | .piece octets _ _ => octets
  | _ => []

def GetDataResult.isTruncated : GetDataResult → Bool
  | .piece _ _ truncated => truncated
  | _ => false

/-- A call for a character value of the column, with a buffer length that is accepted. -/
structure GetDataCall.For (column : Nat) (c : GetDataCall) : Prop where
  column : c.columnNumber = column
  checked : c.checked = .ok .varchar
  accepted : 0 ≤ c.room

namespace Retrieval

variable {column : Nat} {v : CharacterString}

/-- The number of octets of the column that were retrieved. -/
def offset (r : Retrieval) (column : Nat) : Nat :=
  match r.begun with
  | some (begun, k) => if column = begun then k else 0
  | none => 0

theorem respond_for (hlow : 1 ≤ column) (hhigh : column ≤ columns)
    (hnull : (r.row column).isNull = false) (hvalue : (r.row column).asString = .ok v)
    (hc : c.For column) :
    r.respond columns (.getData c) = (pieceFrom c v.1 (r.offset column),
      { r with begun := begunAfter c v.1 (r.offset column) }) := by
  obtain ⟨rfl, hchecked, -⟩ := hc
  have hvalid : ¬(c.columnNumber < 1 ∨ columns < c.columnNumber) := by omega
  have hstart : r.start c .varchar =
      (pieceFrom c v.1 0, { r with begun := begunAfter c v.1 0 }) := by
    simp only [start, hnull, hvalue, Bool.false_eq_true, if_false]
  simp only [respond, if_neg hvalid, hchecked, offset]
  cases hbegun : r.begun with
  | none => exact hstart
  | some p =>
      by_cases hsame : c.columnNumber = p.1
      · simp only [if_pos hsame, continued, hvalue]
      · simp only [if_neg hsame, hstart]

theorem pieceFrom_accepted (hc : 0 ≤ c.room) (k : Nat) : pieceFrom c v.1 k =
    .piece ((v.1.drop k).take c.room.toNat) (v.1.length - k) (c.room.toNat < v.1.length - k) := by
  rw [pieceFrom, if_neg (Int.not_lt.2 hc)]

/-- Each call gives the length of what was left, and the pieces up to the first one that is not
truncated are the value. -/
theorem outputs_for {calls : List GetDataCall} {before after : List GetDataResult}
    {o : GetDataResult} (hlow : 1 ≤ column) (hhigh : column ≤ columns)
    (hnull : (r.row column).isNull = false) (hvalue : (r.row column).asString = .ok v)
    (hcalls : ∀ c ∈ calls, c.For column) (hoffset : r.offset column ≤ v.1.length)
    (houtputs : (retrieval columns).outputs r (calls.map .getData) = before ++ o :: after)
    (hbefore : ∀ p ∈ before, p.isTruncated = true) :
    (∃ octets t, o = .piece octets
        (v.1.length - (r.offset column + (before.flatMap (·.octets)).length)) t) ∧
      (o.isTruncated = false →
        v.1.take (r.offset column) ++ (before ++ [o]).flatMap (·.octets) = v.1 ∧
        ((retrieval columns).after r
          ((calls.take (before.length + 1)).map .getData)).begun = none) := by
  induction before generalizing r calls with
  | nil =>
      cases calls with
      | nil => cases houtputs
      | cons c calls =>
          rw [List.forall_mem_cons] at hcalls
          have hrespond := respond_for hlow hhigh hnull hvalue hcalls.1
          have hpiece := pieceFrom_accepted (v := v) hcalls.1.accepted (r.offset column)
          have ho : o = pieceFrom c v.1 (r.offset column) := by
            have hhead := (List.cons.inj houtputs).1
            rw [← hhead]
            exact congrArg Prod.fst hrespond
          rw [hpiece] at ho
          subst ho
          refine ⟨⟨_, _, rfl⟩, fun htruncated => ?_⟩
          have hlarge : v.1.length - r.offset column ≤ c.room.toNat := by
            simpa [GetDataResult.isTruncated] using htruncated
          constructor
          · have hdrop : (v.1.drop (r.offset column)).take c.room.toNat =
                v.1.drop (r.offset column) :=
              List.take_of_length_le (by simpa using hlarge)
            simp only [List.nil_append, List.flatMap_cons, List.flatMap_nil, List.append_nil,
              GetDataResult.octets, hdrop, List.take_append_drop]
          · have hafter : ((retrieval columns).after r [.getData c]) =
                { r with begun := begunAfter c v.1 (r.offset column) } :=
              congrArg Prod.snd hrespond
            show ((retrieval columns).after r [.getData c]).begun = none
            rw [hafter]
            exact if_neg (by omega)
  | cons p before ih =>
      cases calls with
      | nil => cases houtputs
      | cons c calls =>
          rw [List.forall_mem_cons] at hcalls hbefore
          have hrespond := respond_for hlow hhigh hnull hvalue hcalls.1
          have hpiece := pieceFrom_accepted (v := v) hcalls.1.accepted (r.offset column)
          obtain ⟨hhead, htail⟩ := List.cons.inj houtputs
          have hp : p = pieceFrom c v.1 (r.offset column) := by
            rw [← hhead]
            exact congrArg Prod.fst hrespond
          rw [hpiece] at hp
          have hmore : c.room.toNat < v.1.length - r.offset column := by
            have htruncated := hbefore.1
            rw [hp] at htruncated
            simpa [GetDataResult.isTruncated] using htruncated
          have hstate : (r.respond columns (.getData c)).2 =
              { r with begun := begunAfter c v.1 (r.offset column) } := congrArg Prod.snd hrespond
          have hbegun : begunAfter c v.1 (r.offset column) =
              some (column, r.offset column + c.room.toNat) := by
            rw [begunAfter, if_pos ⟨hcalls.1.accepted, hmore⟩, hcalls.1.column]
          rw [hbegun] at hstate
          have hoffset' : (r.respond columns (.getData c)).2.offset column =
              r.offset column + c.room.toNat := by
            simp [hstate, offset]
          have hrow : (r.respond columns (.getData c)).2.row = r.row := by rw [hstate]
          have hoctets :
              p.octets = (v.1.drop (r.offset column)).take c.room.toNat := by rw [hp]; rfl
          have hlength : p.octets.length = c.room.toNat := by
            rw [hoctets, List.length_take, List.length_drop]
            omega
          have hnull' : ((r.respond columns (.getData c)).2.row column).isNull = false := by
            rw [hrow]
            exact hnull
          have hvalue' : ((r.respond columns (.getData c)).2.row column).asString = .ok v := by
            rw [hrow]
            exact hvalue
          have hle : (r.respond columns (.getData c)).2.offset column ≤ v.1.length := by
            rw [hoffset']
            omega
          obtain ⟨hleft, hwhole⟩ := ih hnull' hvalue' hcalls.2 hle htail hbefore.2
          rw [hoffset'] at hleft hwhole
          constructor
          · obtain ⟨octets, t, ho⟩ := hleft
            refine ⟨octets, t, ?_⟩
            rw [ho, List.flatMap_cons, List.length_append, hlength, Nat.add_assoc]
          · intro htruncated
            obtain ⟨hvalue, hended⟩ := hwhole htruncated
            refine ⟨?_, hended⟩
            rw [List.cons_append, List.flatMap_cons, hoctets, ← List.append_assoc, ← List.take_add]
            exact hvalue

end Retrieval

/-! ## Every run -/

/-- What a run of requests answers, from the first row. -/
structure Retrieves (columns : Nat) (row : Nat → ColumnValue) (requests : List GetDataRequest) :
    Prop where
  answers : ∀ pre, pre <+: requests → ∀ next,
    (((statement columns).after (.fetched row) pre).respond columns next).1 =
      (((retrieval columns).after ⟨row, none⟩ pre).respond columns next).1
  whole : ∀ (pre post : List GetDataRequest) (calls : List GetDataCall) (s : Stmt) (column : Nat)
    (v : CharacterString), requests = pre ++ (calls.map .getData ++ post) →
    s = (statement columns).after (.fetched row) pre → s.fetchedColumn ≠ -column →
    1 ≤ column → column ≤ columns → (s.row column).isNull = false →
    (s.row column).asString = .ok v → (∀ c ∈ calls, c.For column) →
    ∀ before o after, (statement columns).outputs s (calls.map .getData) = before ++ o :: after →
      (∀ p ∈ before, p.isTruncated = true) →
        (∃ octets t, o = .piece octets (v.1.length - (before.flatMap (·.octets)).length) t) ∧
          (o.isTruncated = false → (before ++ [o]).flatMap (·.octets) = v.1 ∧
            ((statement columns).after s
              ((calls.take (before.length + 1)).map .getData)).fetchedColumn ≠ -column)

theorem related_fetched (row : Nat → ColumnValue) :
    Related columns (.fetched row) ⟨row, none⟩ := by
  refine ⟨rfl, fun _ => Int.le_refl 0, ?_⟩
  rintro column k ⟨⟩

theorem run_related {requests : List GetDataRequest} (h : Related columns s r)
    (hfits : (statement columns).Each Stmt.Fits s requests) :
    (statement columns).outputs s requests = (retrieval columns).outputs r requests ∧
      Related columns ((statement columns).after s requests)
        ((retrieval columns).after r requests) := by
  induction requests generalizing s r with
  | nil => exact ⟨rfl, h⟩
  | cons request requests ih =>
      obtain ⟨hresult, hrelated⟩ := respond_related h request
      obtain ⟨houtputs, hafter⟩ := ih (hrelated hfits.1) hfits.2
      refine ⟨?_, hafter⟩
      show (s.respond columns request).1 :: (statement columns).outputs _ requests =
        (r.respond columns request).1 :: (retrieval columns).outputs _ requests
      rw [hresult]
      exact congrArg _ houtputs

theorem getData_continued (hvalid : ¬(c.columnNumber < 1 ∨ columns < c.columnNumber))
    (hchecked : c.checked = .ok .varchar) (hcolumn : s.fetchedColumn = -c.columnNumber) :
    getData columns s c = retrievePiece { s with fetchedColumn := c.columnNumber } c := by
  have hcontinued : -s.fetchedColumn = c.columnNumber := by omega
  have hnegative : s.fetchedColumn < 0 := by omega
  simp only [getData, if_neg hvalid, hchecked, if_pos hnegative, hcontinued, if_true, ne_eq,
    not_true_eq_false, if_false]

/-- A piece that is counted past the largest `int` makes the next one a slice out of range. -/
theorem panic_of_not_fits (h : Related columns s r) {request : GetDataRequest}
    (hfits : ¬s.Fits request) :
    ((s.respond columns request).2.respond columns request).1 = .panic := by
  cases request with
  | move row => exact absurd trivial hfits
  | getData c =>
      simp only [Stmt.Fits, Classical.not_imp, Int.not_lt] at hfits
      obtain ⟨hnegative, hcolumn, hchecked, hlarge⟩ := hfits
      cases hbegun : r.begun with
      | none =>
          have := h.ended hbegun
          omega
      | some p =>
          obtain ⟨hpos, hle, hfetched, hk, hlt, -⟩ := h.begun p.1 p.2 hbegun
          have hmax := s.fetchedValue.2
          have hroom := room_lt (c := c)
          have hvalid : ¬(c.columnNumber < 1 ∨ columns < c.columnNumber) := by omega
          let next : Stmt := { s with fetchedColumn := c.columnNumber }
          have hlow : 0 ≤ next.fetchedLength.toInt := by
            show 0 ≤ s.fetchedLength.toInt
            omega
          have hhigh : next.fetchedLength.toInt ≤ next.fetchedValue.1.length := by
            show s.fetchedLength.toInt ≤ s.fetchedValue.1.length
            omega
          have hwrapped : (s.fetchedLength + .ofInt c.room).toInt < 0 := by
            have hofInt : (Int32.ofInt c.room).toInt = c.room :=
              Int32.toInt_ofInt_of_le (by omega) (by omega)
            rw [Int32.toInt_add, hofInt, Int.bmod_def]
            split <;> omega
          have hafter : (retrievePiece next c).2 =
              { s with
                fetchedLength := s.fetchedLength + .ofInt c.room
                fetchedColumn := -c.columnNumber } := by
            have hless : (next.fetchedLength + .ofInt c.room).toInt <
                next.fetchedValue.1.length := by
              show (s.fetchedLength + .ofInt c.room).toInt < _
              omega
            rw [retrievePiece_snd hlow hhigh, if_neg (by omega), if_pos hless]
          show (getData columns (getData columns s c).2 c).1 = .panic
          rw [getData_continued hvalid hchecked hcolumn, hafter,
            getData_continued hvalid hchecked rfl, retrievePiece, if_pos]
          left
          exact Int32.lt_iff_toInt_lt.2 hwrapped

theorem retrieval_ne_panic (request : GetDataRequest) :
    (r.respond columns request).1 ≠ .panic := by
  cases request with
  | move row => simp [Retrieval.respond]
  | getData c =>
      have hstart (typ : CType) : (r.start c typ).1 ≠ .panic := by
        unfold Retrieval.start
        dsimp only
        split
        · split <;> simp
        · cases typ with
          | number => cases (r.row c.columnNumber).asNumber <;> simp
          | varchar =>
              cases (r.row c.columnNumber).asString with
              | error e => simp
              | ok v => exact pieceFrom_ne_panic v.1 0
      simp only [Retrieval.respond]
      split
      · simp
      · cases c.checked with
        | error e => simp
        | ok typ =>
            cases r.begun with
            | none => exact hstart typ
            | some p =>
                dsimp only
                split
                · cases typ with
                  | number => simp [Retrieval.continued]
                  | varchar =>
                      unfold Retrieval.continued
                      cases (r.row c.columnNumber).asString with
                      | error e => simp
                      | ok v => exact pieceFrom_ne_panic v.1 p.2
                · exact hstart typ

theorem each_of_answers {requests : List GetDataRequest} (h : Related columns s r)
    (hanswers : ∀ pre, pre <+: requests → ∀ next,
      (((statement columns).after s pre).respond columns next).1 =
        (((retrieval columns).after r pre).respond columns next).1) :
    (statement columns).Each Stmt.Fits s requests := by
  induction requests generalizing s r with
  | nil => trivial
  | cons request requests ih =>
      have hfits : s.Fits request := by
        by_contra hfits
        have hpanic := hanswers [request] (by simp) request
        exact retrieval_ne_panic request (hpanic.symm.trans (panic_of_not_fits h hfits))
      refine ⟨hfits, ih ((respond_related h request).2 hfits) fun pre hpre next => ?_⟩
      exact hanswers (request :: pre) (List.cons_prefix_cons.2 ⟨rfl, hpre⟩) next

/-- The runs that are right are those in which the counting fits into an `int`. -/
theorem retrieves_iff {row : Nat → ColumnValue} {requests : List GetDataRequest} :
    Retrieves columns row requests ↔
      (statement columns).Each Stmt.Fits (.fetched row) requests := by
  constructor
  · intro hsound
    exact each_of_answers (related_fetched row) hsound.answers
  · intro hfits
    have hrelated (pre : List GetDataRequest) (hpre : pre <+: requests) :=
      (run_related (related_fetched row) (Machine.each_of_prefix hpre hfits)).2
    constructor
    · intro pre hpre next
      exact (respond_related (hrelated pre hpre) next).1
    · rintro pre post calls s column v rfl rfl hfresh hlow hhigh hnull hvalue hcalls before o after
        houtputs hbefore
      rw [Machine.each_append, Machine.each_append] at hfits
      obtain ⟨-, hcallsFit, -⟩ := hfits
      have hpre := hrelated pre (List.prefix_append _ _)
      generalize (statement columns).after (.fetched row) pre = s at *
      generalize (retrieval columns).after ⟨row, none⟩ pre = r at *
      have hoffset : r.offset column = 0 := by
        unfold Retrieval.offset
        cases hbegun : r.begun with
        | none => rfl
        | some p =>
            have hfetched := (hpre.begun p.1 p.2 hbegun).2.2.1
            apply if_neg
            intro hsame
            rw [← hsame] at hfetched
            exact hfresh hfetched
      rw [hpre.row] at hnull hvalue
      rw [(run_related hpre hcallsFit).1] at houtputs
      obtain ⟨hleft, hwhole⟩ :=
        Retrieval.outputs_for hlow hhigh hnull hvalue hcalls (by omega) houtputs hbefore
      rw [hoffset] at hleft hwhole
      constructor
      · simpa using hleft
      · intro htruncated
        obtain ⟨hoctets, hended⟩ := hwhole htruncated
        have htake : (calls.take (before.length + 1)).map GetDataRequest.getData <+:
            calls.map .getData := (List.take_prefix _ _).map _
        have hafter := (run_related hpre (Machine.each_of_prefix htake hcallsFit)).2.ended hended
        exact ⟨by simpa using hoctets, by omega⟩

/-- VALUES 'abc' -/
def abcRow : Nat → ColumnValue := fun _ =>
  ⟨false, .ok ⟨[0x61, 0x62, 0x63], by decide⟩, .error ⟨"22018", ""⟩⟩

def getChar (bufferLength : Int32) : GetDataRequest :=
  .getData ⟨1, .ok .varchar, bufferLength, false, true⟩

/-- Two octets and then any number of them. -/
def abcPieces : List GetDataRequest := [getChar 2, getChar 2147483647]

/-- The buffer has room for the last octet, but the next call is not for the first one. -/
theorem not_retrieves_abcPieces : ¬Retrieves 1 abcRow abcPieces := by
  intro h
  exact absurd (h.answers abcPieces List.prefix_rfl (getChar 2)) (by decide)

end Vsql.Cli
