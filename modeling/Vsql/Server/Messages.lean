import Vsql.Queries.SetOperation
import Vsql.Server.Sqlstate
import Vsql.Values.ValueText

/-!
# The messages of the server

A message is a byte for its kind, its length (which counts itself) and its fields.  The
length is summed up before the fields are written, and a client takes the fields from as
many bytes.
-/

namespace Vsql.Pg

open Foundation Foundation.Reader
open Rows (Column ByteReader readU8 readU8s readInt writeInt reads_readU8 reads_readU8s
  reads_readInt pastEnd)

/-! ## What is sent -/

def byteOf (c : Char) : UInt8 := UInt8.ofNat c.toNat

def ascii (s : String) : Bytes := s.toList.map byteOf

/-- What the server uses of an `IError`: without a code, it is not an SQLSTATE. -/
structure IError where
  msg : Bytes
  sqlstate : Option SqlCode

def IError.code (err : IError) : Int :=
  match err.sqlstate with
  | some s => sqlstateToInt s.code
  | none => 0

/-- `is SQLState02000` -/
def IError.isNoData (err : IError) : Bool :=
  match err.sqlstate with
  | some s => s.code == ascii "02000"
  | none => false

structure Result where
  columns : List Column
  rows : List Rows.Row
  msg : Bytes

def writeByte (b : UInt8) : Bytes := [b]

def writeInt16 (x : Nat) : Bytes := writeU16 x

/-- An `int` wraps around as its bytes do. -/
def writeInt32 (x : Nat) : Bytes := writeU32 x

def writeString (s : Bytes) : Bytes := s ++ writeByte 0

def writeAuthenticationOk : Bytes := writeByte (byteOf 'R') ++ writeInt32 8 ++ writeInt32 0

/-- The messages are sent after it. -/
def writeReadyForQuery : Bytes :=
  writeByte (byteOf 'Z') ++ writeInt32 5 ++ writeByte (byteOf 'I')

def writeEmptyQueryResponse : Bytes := writeByte (byteOf 'I') ++ writeInt32 4

def writeErrorOrNotice (msgType : UInt8) (severity : Bytes) (err : IError) : Bytes :=
  let sqlstate := if err.code = 0 then ascii "XX000" else sqlstateFromInt err.code
  let msgLen := 4
  let msgLen := msgLen + (1 + severity.length + 1)
  let msgLen := msgLen + (1 + err.msg.length + 1)
  let msgLen := msgLen + (1 + sqlstate.length + 1)
  let msgLen := msgLen + 1
  writeByte msgType ++ writeInt32 msgLen ++
    writeByte (byteOf 'S') ++ writeString severity ++
    writeByte (byteOf 'M') ++ writeString err.msg ++
    writeByte (byteOf 'C') ++ writeString sqlstate ++ writeByte 0

def writeErrorResult (err : IError) : Bytes :=
  writeErrorOrNotice (byteOf 'E') (ascii "ERROR") err

def writeNotice (warning : IError) : Bytes :=
  let severity := if warning.isNoData then ascii "NOTICE" else ascii "WARNING"
  writeErrorOrNotice (byteOf 'N') severity warning

def writeCommandComplete (tag : Bytes) : Bytes :=
  writeByte (byteOf 'C') ++ writeInt32 (4 + (tag.length + 1)) ++ writeString tag

/-- The name that a column is described with. -/
def columnName (column : Column) : Bytes := column.name.subEntityName.utf8

def writeRowDescription (result : Result) : Bytes :=
  let msgLen :=
    result.columns.foldl (fun msgLen column => msgLen + ((columnName column).length + 1) + 18)
    (4 + 2)
  writeByte (byteOf 'T') ++ writeInt32 msgLen ++ writeInt16 result.columns.length ++
    result.columns.flatMap fun column =>
      writeString (columnName column) ++ writeInt32 0 ++ writeInt16 0 ++ writeInt32 0 ++
        writeInt16 0 ++ writeInt32 0 ++ writeInt16 0

/-- The value of the column, or what is wrong with it. -/
def columnText (formats : FloatFormat) (row : Rows.Row) (column : Column) : Bytes :=
  match row.getColumn column with
  | .ok v => v.str formats
  | .error (.error _ message) => Text.utf8 message.toList
  | .error (.panic message) => Text.utf8 message.toList

def writeDataRow (formats : FloatFormat) (columns : List Column) (row : Rows.Row) : Bytes :=
  let msgLen :=
    columns.foldl (fun msgLen column => msgLen + (4 + (columnText formats row column).length))
    (4 + 2)
  writeByte (byteOf 'D') ++ writeInt32 msgLen ++ writeInt16 columns.length ++
    columns.flatMap fun column =>
      writeInt32 (columnText formats row column).length ++ columnText formats row column

/-- `all_after` of a text that it starts with. -/
def pgCommandTag (result : Result) : Bytes :=
  if result.msg = [] then ascii "SELECT " ++ (intText result.rows.length).utf8
  else if (ascii "INSERT ").isPrefixOf result.msg then
    ascii "INSERT 0 " ++ result.msg.drop (ascii "INSERT ").length
  else result.msg

def writeResult (formats : FloatFormat) (result : Result) : Bytes :=
  (if result.msg = [] then
    writeRowDescription result ++ result.rows.flatMap (writeDataRow formats result.columns)
   else []) ++ writeCommandComplete (pgCommandTag result)

/-! ## What a client reads -/

structure FieldDescription where
  name : Bytes
  tableId : Int
  attributeId : Int
  typeId : Int
  typeSize : Int
  typeModifier : Int
  format : Int

inductive Reply where
  | authenticationOk
  | readyForQuery (status : UInt8)
  | emptyQueryResponse
  | rowDescription (fields : List FieldDescription)
  | dataRow (values : List (Option Bytes))
  | commandComplete (tag : Bytes)
  | errorResponse (fields : List (UInt8 × Bytes))
  | noticeResponse (fields : List (UInt8 × Bytes))

def invalidMessage : Failure := .error .sXX000 "invalid message"

/-- Up to a zero byte. -/
def readString : ByteReader Bytes := fun input =>
  if input.contains 0 then .ok (input.takeWhile (· ≠ 0), (input.dropWhile (· ≠ 0)).drop 1)
  else .error invalidMessage

def readFieldDescription : ByteReader FieldDescription := do
  let name ← readString
  let tableId ← readInt 4
  let attributeId ← readInt 2
  let typeId ← readInt 4
  let typeSize ← readInt 2
  let typeModifier ← readInt 4
  let format ← readInt 2
  pure ⟨name, tableId, attributeId, typeId, typeSize, typeModifier, format⟩

/-- A length of -1 is NULL. -/
def readValue : ByteReader (Option Bytes) := do
  let length ← readInt 4
  if length = -1 then pure none
  else if length < 0 then throw invalidMessage
  else some <$> readU8s length.toNat

def readCounted {α : Type} (r : ByteReader α) : ByteReader (List α) := do
  let count ← readInt 2
  if count < 0 then throw invalidMessage else times r count.toNat

/-- The fields of an error, which end with a zero byte. -/
def readErrorFields : (fuel : Nat) → ByteReader (List (UInt8 × Bytes))
  | 0 => throw invalidMessage
  | fuel + 1 => do
      let typ ← readU8
      if typ = 0 then pure []
      else do
        let value ← readString
        let rest ← readErrorFields fuel
        pure ((typ, value) :: rest)

def readAuthentication : ByteReader Reply := do
  let method ← readInt 4
  if method = 0 then pure .authenticationOk else throw invalidMessage

def readBody (typ : UInt8) (length : Nat) : ByteReader Reply :=
  if typ = byteOf 'R' then readAuthentication
  else if typ = byteOf 'Z' then .readyForQuery <$> readU8
  else if typ = byteOf 'I' then pure .emptyQueryResponse
  else if typ = byteOf 'T' then .rowDescription <$> readCounted readFieldDescription
  else if typ = byteOf 'D' then .dataRow <$> readCounted readValue
  else if typ = byteOf 'C' then .commandComplete <$> readString
  else if typ = byteOf 'E' then .errorResponse <$> readErrorFields length
  else if typ = byteOf 'N' then .noticeResponse <$> readErrorFields length
  else throw invalidMessage

/-- The fields take all of the bytes that the length says. -/
def parseBody (typ : UInt8) (body : Bytes) : Except Failure Reply := do
  let (reply, rest) ← (readBody typ body.length).run body
  if rest = [] then pure reply else throw invalidMessage

def readReply : ByteReader Reply := do
  let typ ← readU8
  let length ← readInt 4
  if length < 4 then throw invalidMessage
  else do
    let body ← readU8s (length.toNat - 4)
    StateT.lift (parseBody typ body)

/-- All of the messages. -/
def readRepliesFrom : (fuel : Nat) → Bytes → Except Failure (List Reply)
  | _, [] => .ok []
  | 0, _ => .error invalidMessage
  | fuel + 1, data => do
      let (reply, rest) ← readReply.run data
      let replies ← readRepliesFrom fuel rest
      pure (reply :: replies)

def readReplies (data : Bytes) : Except Failure (List Reply) := readRepliesFrom data.length data

/-! ## What a result says -/

/-- The code that an error is reported with. -/
def IError.state (err : IError) : Bytes :=
  match err.sqlstate with
  | none => ascii "XX000"
  | some s => if s.code = ascii "00000" then ascii "XX000" else s.code

def IError.fields (severity : Bytes) (err : IError) : List (UInt8 × Bytes) :=
  [(byteOf 'S', severity), (byteOf 'M', err.msg), (byteOf 'C', err.state)]

def IError.errorReply (err : IError) : Reply := .errorResponse (err.fields (ascii "ERROR"))

def IError.noticeReply (warning : IError) : Reply :=
  .noticeResponse
    (warning.fields (if warning.isNoData then ascii "NOTICE" else ascii "WARNING"))

def describe (column : Column) : FieldDescription := ⟨columnName column, 0, 0, 0, 0, 0, 0⟩

def Result.replies (formats : FloatFormat) (result : Result) : List Reply :=
  (if result.msg = [] then
    .rowDescription (result.columns.map describe) ::
      result.rows.map fun row =>
        .dataRow (result.columns.map fun column => some (columnText formats row column))
   else []) ++ [.commandComplete (pgCommandTag result)]

/-- The message of an error, with the rest of the error, has a length that is an `int`. -/
structure IError.Sendable (err : IError) : Prop where
  msg : 0 ∉ err.msg
  length : err.msg.length + 32 < 2 ^ 31

structure Result.Sendable (formats : FloatFormat) (result : Result) : Prop where
  columns : result.columns.length < 2 ^ 15
  names : ∀ column ∈ result.columns, 0 ∉ columnName column
  description : (writeRowDescription result).length ≤ 2 ^ 31
  rowCount : result.rows.length < 2 ^ 31
  rows : ∀ row ∈ result.rows, (writeDataRow formats result.columns row).length ≤ 2 ^ 31
  tag : 0 ∉ result.msg
  tagLength : result.msg.length + 32 < 2 ^ 31

/-! ## One message -/

theorem reads_readString {s : Bytes} (h : 0 ∉ s) : Reads readString (writeString s) s := by
  intro rest
  have hne : ∀ b ∈ s, decide (b ≠ 0) = true := fun b hb =>
    decide_eq_true fun hzero => h (hzero ▸ hb)
  have htake : (s ++ 0 :: rest).takeWhile (· ≠ 0) = s := by
    rw [List.takeWhile_append_of_pos hne]
    simp
  have hdrop : (s ++ 0 :: rest).dropWhile (· ≠ 0) = 0 :: rest := by
    rw [List.dropWhile_append_of_pos hne]
    simp
  have htext : writeString s ++ rest = s ++ 0 :: rest := by
    rw [writeString, writeByte, List.append_assoc]
    rfl
  rw [htext, readString, if_pos (by simp), htake, hdrop]
  rfl

theorem reads_writeInt32 {n : Nat} (h : n < 2 ^ 31) :
    Reads (readInt 4) (writeInt32 n) (n : Int) := by
  have hread : Reads (readInt 4) (writeInt 4 n) (n : Int) := reads_readInt (by omega) (by omega)
  have hbytes : writeInt 4 (n : Int) = writeInt32 n := by
    have hmod : ((n : Int) % 256 ^ 4).toNat = n := by omega
    rw [writeInt, hmod]
    rfl
  rwa [hbytes] at hread

theorem reads_writeInt16 {n : Nat} (h : n < 2 ^ 15) :
    Reads (readInt 2) (writeInt16 n) (n : Int) := by
  have hread : Reads (readInt 2) (writeInt 2 n) (n : Int) := reads_readInt (by omega) (by omega)
  have hbytes : writeInt 2 (n : Int) = writeInt16 n := by
    have hmod : ((n : Int) % 256 ^ 2).toNat = n := by omega
    rw [writeInt, hmod]
    rfl
  rwa [hbytes] at hread

/-- A message is read if its fields take all of its body. -/
theorem reads_readReply {typ : UInt8} {body : Bytes} {reply : Reply} {n : Nat}
    (hbody : Reads (readBody typ body.length) body reply) (hn : n = 4 + body.length)
    (hlength : n < 2 ^ 31) : Reads readReply (writeByte typ ++ (writeInt32 n ++ body)) reply := by
  have hparse : parseBody typ body = .ok reply := by
    rw [parseBody]
    change ((readBody typ body.length) body >>= _) = _
    rw [hbody.run]
    rfl
  refine (reads_readU8 typ).bind ((reads_writeInt32 hlength).bind ?_)
  rw [if_neg (by omega)]
  refine (reads_readU8s (by omega)).bind_nil ?_
  exact reads_lift hparse

theorem reads_writeAuthenticationOk : Reads readReply writeAuthenticationOk .authenticationOk := by
  have hmethod : Reads readAuthentication (writeInt32 0) .authenticationOk :=
    (reads_writeInt32 (show 0 < 2 ^ 31 by decide)).bind_nil (reads_pure _)
  have hbody : Reads (readBody (byteOf 'R') (writeInt32 0).length) (writeInt32 0) _ := hmethod
  rw [writeAuthenticationOk, List.append_assoc]
  exact reads_readReply hbody (by decide) (by decide)

theorem reads_writeReadyForQuery :
    Reads readReply writeReadyForQuery (.readyForQuery (byteOf 'I')) := by
  have hbody : Reads (readBody (byteOf 'Z') (writeByte (byteOf 'I')).length)
      (writeByte (byteOf 'I')) (.readyForQuery (byteOf 'I')) := by
    simpa [readBody, byteOf, writeByte] using (reads_readU8 (byteOf 'I')).map Reply.readyForQuery
  rw [writeReadyForQuery, List.append_assoc]
  exact reads_readReply hbody (by decide) (by decide)

theorem reads_writeEmptyQueryResponse :
    Reads readReply writeEmptyQueryResponse .emptyQueryResponse := by
  have hpure : Reads (pure .emptyQueryResponse : ByteReader Reply) [] .emptyQueryResponse :=
    reads_pure _
  have hbody : Reads (readBody (byteOf 'I') ([] : Bytes).length) [] .emptyQueryResponse := by
    simpa [readBody, byteOf] using hpure
  have hread := reads_readReply hbody (show 4 = 4 + ([] : Bytes).length from rfl) (by decide)
  rwa [List.append_nil] at hread

theorem reads_writeCommandComplete {tag : Bytes} (h : 0 ∉ tag) (hlength : tag.length + 5 < 2 ^ 31) :
    Reads readReply (writeCommandComplete tag) (.commandComplete tag) := by
  have hbody : Reads (readBody (byteOf 'C') (writeString tag).length) (writeString tag)
      (.commandComplete tag) := by
    simpa [readBody, byteOf] using (reads_readString h).map Reply.commandComplete
  rw [writeCommandComplete, List.append_assoc]
  exact reads_readReply hbody (by simp [writeString, writeByte]) (by omega)

/-! ## Errors -/

theorem sqlstateFromInt_zero : sqlstateFromInt 0 = ascii "00000" := by decide

theorem code_eq_zero (s : SqlCode) : sqlstateToInt s.code = 0 ↔ s.code = ascii "00000" := by
  constructor
  · intro h
    rw [← sqlstateFromInt_sqlstateToInt s, h, sqlstateFromInt_zero]
  · intro h
    rw [h]
    decide

theorem IError.state_eq (err : IError) :
    (if err.code = 0 then ascii "XX000" else sqlstateFromInt err.code) = err.state := by
  unfold IError.code IError.state
  cases err.sqlstate with
  | none => rfl
  | some s => simp only [code_eq_zero, sqlstateFromInt_sqlstateToInt]

theorem IError.state_spec (err : IError) : 0 ∉ err.state ∧ err.state.length = 5 := by
  have hinternal : 0 ∉ ascii "XX000" ∧ (ascii "XX000").length = 5 := by decide
  unfold IError.state
  cases err.sqlstate with
  | none => exact hinternal
  | some s =>
      simp only
      split_ifs
      · exact hinternal
      · refine ⟨fun hzero => ?_, s.length⟩
        have hbyte := s.chars 0 hzero
        revert hbyte
        decide

theorem reads_readErrorFields {fields : List (UInt8 × Bytes)} {fuel : Nat}
    (hfuel : fields.length < fuel) (h : ∀ f ∈ fields, f.1 ≠ 0 ∧ 0 ∉ f.2) :
    Reads (readErrorFields fuel)
      (fields.flatMap (fun f => writeByte f.1 ++ writeString f.2) ++ writeByte 0) fields := by
  induction fields generalizing fuel with
  | nil =>
      obtain ⟨fuel, rfl⟩ : ∃ n, fuel = n + 1 := ⟨fuel - 1, by omega⟩
      exact (reads_readU8 0).bind_nil (reads_pure [])
  | cons f fields ih =>
      rw [List.length_cons] at hfuel
      obtain ⟨fuel, rfl⟩ : ∃ n, fuel = n + 1 := ⟨fuel - 1, by omega⟩
      obtain ⟨htyp, hvalue⟩ := h f List.mem_cons_self
      have hrest := @ih fuel (by omega) fun g hg => h g (List.mem_cons_of_mem f hg)
      rw [List.flatMap_cons, List.append_assoc, List.append_assoc]
      refine (reads_readU8 f.1).bind ?_
      rw [if_neg htyp]
      exact (reads_readString hvalue).bind hrest.bind_pure

theorem reads_errorFields {severity : Bytes} {err : IError} (hseverity : 0 ∉ severity)
    (h : err.Sendable) {fuel : Nat} (hfuel : 3 < fuel) :
    Reads (readErrorFields fuel) (writeByte (byteOf 'S') ++ writeString severity ++
      writeByte (byteOf 'M') ++ writeString err.msg ++ writeByte (byteOf 'C') ++
      writeString err.state ++ writeByte 0) (err.fields severity) := by
  have hfields : ∀ f ∈ err.fields severity, f.1 ≠ 0 ∧ 0 ∉ f.2 := by
    intro f hf
    simp only [IError.fields, List.mem_cons, List.not_mem_nil, or_false] at hf
    obtain rfl | rfl | rfl := hf
    · exact ⟨show byteOf 'S' ≠ 0 by decide, hseverity⟩
    · exact ⟨show byteOf 'M' ≠ 0 by decide, h.msg⟩
    · exact ⟨show byteOf 'C' ≠ 0 by decide, err.state_spec.1⟩
  have hread := reads_readErrorFields (show (err.fields severity).length < fuel from hfuel) hfields
  simpa [IError.fields] using hread

theorem length_writeString (s : Bytes) : (writeString s).length = s.length + 1 := by
  simp [writeString, writeByte]

theorem length_writeByte (b : UInt8) : (writeByte b).length = 1 := rfl

theorem reads_writeErrorOrNotice {msgType : UInt8} {severity : Bytes} {err : IError}
    {reply : List (UInt8 × Bytes) → Reply} (hseverity : 0 ∉ severity ∧ severity.length ≤ 7)
    (h : err.Sendable) (hbody : ∀ fuel, readBody msgType fuel = reply <$> readErrorFields fuel) :
    Reads readReply (writeErrorOrNotice msgType severity err) (reply (err.fields severity)) := by
  have hstate := err.state_spec.2
  have hlength := h.length
  have hfields := (@reads_errorFields severity err hseverity.1 h
    (writeByte (byteOf 'S') ++ writeString severity ++ writeByte (byteOf 'M') ++
      writeString err.msg ++ writeByte (byteOf 'C') ++ writeString err.state ++ writeByte 0).length
    (by simp only [List.length_append, length_writeString, length_writeByte]; omega)).map reply
  rw [← hbody] at hfields
  have hread := reads_readReply hfields rfl
    (by simp only [List.length_append, length_writeString, length_writeByte]; omega)
  unfold writeErrorOrNotice
  rw [err.state_eq]
  simp only [List.length_append, length_writeString, length_writeByte, hstate] at hread ⊢
  have hsum : 4 + (1 + (severity.length + 1) + 1 + (err.msg.length + 1) + 1 + (5 + 1) + 1) =
      4 + (1 + severity.length + 1) + (1 + err.msg.length + 1) + (1 + 5 + 1) + 1 := by omega
  rw [hsum] at hread
  simpa [List.append_assoc] using hread

theorem reads_writeErrorResult {err : IError} (h : err.Sendable) :
    Reads readReply (writeErrorResult err) err.errorReply :=
  reads_writeErrorOrNotice (by decide) h fun fuel => by simp [readBody, byteOf]

theorem reads_writeNotice {warning : IError} (h : warning.Sendable) :
    Reads readReply (writeNotice warning) warning.noticeReply := by
  refine reads_writeErrorOrNotice ?_ h fun fuel => by simp [readBody, byteOf]
  split <;> decide

/-! ## Rows -/

theorem foldl_add_length {α : Type} (f : α → Nat) (l : List α) (n : Nat) :
    l.foldl (fun n a => n + f a) n = n + (l.map f).sum := by
  induction l generalizing n with
  | nil => rfl
  | cons a l ih => rw [List.foldl_cons, ih, List.map_cons, List.sum_cons, Nat.add_assoc]

theorem reads_fieldDescription {column : Column} (h : 0 ∉ columnName column) :
    Reads readFieldDescription (writeString (columnName column) ++ writeInt32 0 ++ writeInt16 0 ++
      writeInt32 0 ++ writeInt16 0 ++ writeInt32 0 ++ writeInt16 0) (describe column) := by
  have h32 : Reads (readInt 4) (writeInt32 0) 0 := reads_writeInt32 (by decide)
  have h16 : Reads (readInt 2) (writeInt16 0) 0 := reads_writeInt16 (by decide)
  simp only [List.append_assoc]
  exact (reads_readString h).bind (h32.bind (h16.bind (h32.bind (h16.bind (h32.bind
    (h16.bind_nil (reads_pure _)))))))

theorem reads_value {v : Bytes} (h : v.length < 2 ^ 31) :
    Reads readValue (writeInt32 v.length ++ v) (some v) := by
  refine (reads_writeInt32 h).bind ?_
  rw [if_neg (by omega), if_neg (by omega)]
  exact (reads_readU8s rfl).map some

theorem length_counted {α : Type} (l : List α) (f : α → Bytes) :
    (writeInt16 l.length ++ l.flatMap f).length = 2 + (l.map fun a => (f a).length).sum := by
  rw [List.length_append, List.length_flatMap]
  simp [writeInt16]

/-- A message of a kind that is a list of fields, whose lengths are summed up first. -/
theorem reads_countedMessage {α β : Type} {typ : UInt8} {r : ByteReader β} {reply : List β → Reply}
    {l : List α} {f : α → Bytes} {g : α → β} {n : Nat} (hcount : l.length < 2 ^ 15)
    (h : ∀ a ∈ l, Reads r (f a) (g a)) (hbody : ∀ k, readBody typ k = reply <$> readCounted r)
    (hn : n = 4 + 2 + (l.map fun a => (f a).length).sum)
    (hlength : (writeByte typ ++ writeInt32 n ++ writeInt16 l.length ++ l.flatMap f).length ≤
      2 ^ 31) :
    Reads readReply (writeByte typ ++ writeInt32 n ++ writeInt16 l.length ++ l.flatMap f)
      (reply (l.map g)) := by
  have hcounted : Reads (readCounted r) (writeInt16 l.length ++ l.flatMap f) (l.map g) := by
    refine (reads_writeInt16 hcount).bind ?_
    rw [if_neg (by omega), Int.toNat_natCast]
    exact reads_times h
  have hfields := hcounted.map reply
  rw [← hbody (writeInt16 l.length ++ l.flatMap f).length] at hfields
  have hsum := length_counted l f
  simp only [List.append_assoc] at hlength ⊢
  refine reads_readReply hfields (by omega) ?_
  simp only [List.length_append, length_writeByte] at hlength hsum
  simp only [writeInt32, length_writeU32] at hlength
  omega

theorem reads_writeRowDescription {formats : FloatFormat} {result : Result}
    (h : result.Sendable formats) :
    Reads readReply (writeRowDescription result)
      (.rowDescription (result.columns.map describe)) := by
  refine reads_countedMessage h.columns (fun column hcolumn => reads_fieldDescription
    (h.names column hcolumn)) (fun k => by simp [readBody, byteOf]) ?_ h.description
  simp only [Nat.add_assoc, foldl_add_length (fun column => (columnName column).length + (1 + 18))]
  simp [length_writeString, writeInt32, writeInt16]
  omega

theorem length_le_flatMap {α : Type} {l : List α} {f : α → Bytes} {a : α} (h : a ∈ l) :
    (f a).length ≤ (l.flatMap f).length := by
  obtain ⟨s, t, rfl⟩ := List.append_of_mem h
  simp only [List.flatMap_append, List.flatMap_cons, List.length_append]
  omega

theorem reads_writeDataRow {formats : FloatFormat} {result : Result} (h : result.Sendable formats)
    {row : Rows.Row} (hrow : row ∈ result.rows) :
    Reads readReply (writeDataRow formats result.columns row)
      (.dataRow (result.columns.map fun column => some (columnText formats row column))) := by
  have hlength := h.rows row hrow
  refine reads_countedMessage h.columns (fun column hcolumn => reads_value ?_)
    (fun k => by simp [readBody, byteOf]) ?_ hlength
  · have hle := length_le_flatMap (f := fun column => writeInt32
      (columnText formats row column).length ++ columnText formats row column) hcolumn
    simp only [writeDataRow, List.length_append, writeInt32, length_writeU32, length_writeByte]
      at hlength hle
    omega
  · simp only [foldl_add_length (fun column => 4 + (columnText formats row column).length)]
    simp [writeInt32]

/-! ## Messages one after the other -/

/-- The bytes are those of the messages, and nothing else. -/
def Spells (data : Bytes) (replies : List Reply) : Prop :=
  ∃ messages : List Bytes, data = messages.flatten ∧ List.Forall₂ (Reads readReply) messages replies

theorem spells_nil : Spells [] [] := ⟨[], rfl, .nil⟩

theorem spells_one {data : Bytes} {reply : Reply} (h : Reads readReply data reply) :
    Spells data [reply] :=
  ⟨[data], by simp, .cons h .nil⟩

theorem Spells.append {data data' : Bytes} {replies replies' : List Reply} (h : Spells data replies)
    (h' : Spells data' replies') : Spells (data ++ data') (replies ++ replies') := by
  obtain ⟨messages, rfl, hreads⟩ := h
  obtain ⟨messages', rfl, hreads'⟩ := h'
  exact ⟨messages ++ messages', by simp, List.rel_append hreads hreads'⟩

theorem spells_flatMap {α : Type} {l : List α} {f : α → Bytes} {g : α → Reply}
    (h : ∀ a ∈ l, Reads readReply (f a) (g a)) : Spells (l.flatMap f) (l.map g) := by
  induction l with
  | nil => exact spells_nil
  | cons a l ih =>
      exact (spells_one (h a List.mem_cons_self)).append
        (ih fun b hb => h b (List.mem_cons_of_mem a hb))

theorem readReply_nil : readReply [] = .error pastEnd := rfl

theorem ne_nil_of_reads {data : Bytes} {reply : Reply} (h : Reads readReply data reply) :
    data ≠ [] := by
  rintro rfl
  have hrun := h.run
  rw [readReply_nil] at hrun
  cases hrun

theorem readRepliesFrom_flatten {messages : List Bytes} {replies : List Reply}
    (h : List.Forall₂ (Reads readReply) messages replies) {fuel : Nat}
    (hfuel : messages.flatten.length ≤ fuel) :
    readRepliesFrom fuel messages.flatten = .ok replies := by
  induction h generalizing fuel with
  | nil => cases fuel <;> rfl
  | @cons message reply messages replies hread _ ih =>
      have hne := ne_nil_of_reads hread
      rw [List.flatten_cons, List.length_append] at hfuel
      have hpos := List.length_pos_iff.mpr hne
      obtain ⟨fuel, rfl⟩ : ∃ n, fuel = n + 1 := ⟨fuel - 1, by omega⟩
      have hrun : readReply (message ++ messages.flatten) = .ok (reply, messages.flatten) :=
        hread messages.flatten
      have hrest := @ih fuel (by omega)
      rw [List.flatten_cons]
      obtain ⟨b, message, rfl⟩ := List.exists_cons_of_ne_nil hne
      rw [List.cons_append] at hrun ⊢
      simp only [readRepliesFrom]
      change (readReply (b :: (message ++ messages.flatten)) >>= _) = _
      rw [hrun]
      change (readRepliesFrom fuel messages.flatten >>= _) = _
      rw [hrest]
      rfl

/-- A client reads the messages back. -/
theorem readReplies_of_spells {data : Bytes} {replies : List Reply} (h : Spells data replies) :
    readReplies data = .ok replies := by
  obtain ⟨messages, rfl, hreads⟩ := h
  exact readRepliesFrom_flatten hreads le_rfl

/-! ## A result -/

theorem utf8_digit {c : Char} (h : c.isDigit) : String.utf8EncodeChar c = [byteOf c] := by
  have hbounds := digit_bounds h
  have hc : c = Char.ofNat c.toNat := by simp
  obtain ⟨hlow, hhigh⟩ := hbounds
  generalize c.toNat = n at hc hlow hhigh
  subst hc
  interval_cases n <;> decide

theorem utf8_digits {s : Text} (h : Digits s) : s.utf8 = s.map byteOf := by
  unfold Text.utf8
  induction s with
  | nil => rfl
  | cons c s ih =>
      rw [List.flatMap_cons, utf8_digit (h c List.mem_cons_self),
        ih fun d hd => h d (List.mem_cons_of_mem c hd)]
      rfl

theorem byteOf_ne_zero {c : Char} (h : c.isDigit) : byteOf c ≠ 0 := by
  have hbounds := digit_bounds h
  intro hzero
  have hnat := congrArg UInt8.toNat hzero
  rw [byteOf, UInt8.toNat_ofNat_of_lt' (by omega : c.toNat < 256)] at hnat
  have : (0 : UInt8).toNat = 0 := rfl
  omega

/-- The number of the rows in decimal digits. -/
theorem rowCount_spec {n : Nat} (h : n < 2 ^ 31) :
    0 ∉ (intText n).utf8 ∧ (intText n).utf8.length ≤ 10 := by
  have hdigits : intText (n : Int) = Nat.toDigits 10 n := by
    rw [intText, if_neg (by omega), Int.natAbs_natCast]
  have hlength : (Nat.toDigits 10 n).length ≤ 10 :=
    (Nat.length_toDigits_le_iff (by omega) (by omega)).mpr (by omega)
  rw [hdigits, utf8_digits (digits_toDigits n)]
  refine ⟨?_, by rwa [List.length_map]⟩
  intro hzero
  obtain ⟨c, hc, hcZero⟩ := List.mem_map.mp hzero
  exact byteOf_ne_zero (digits_toDigits n c hc) hcZero

theorem pgCommandTag_spec {formats : FloatFormat} {result : Result} (h : result.Sendable formats) :
    0 ∉ pgCommandTag result ∧ (pgCommandTag result).length + 5 < 2 ^ 31 := by
  have hcount := rowCount_spec h.rowCount
  have htag := h.tag
  have hlength := h.tagLength
  have hselect : 0 ∉ ascii "SELECT " ∧ (ascii "SELECT ").length = 7 := by decide
  have hinsert : 0 ∉ ascii "INSERT 0 " ∧ (ascii "INSERT 0 ").length = 9 := by decide
  unfold pgCommandTag
  split_ifs
  · rw [List.mem_append, List.length_append]
    exact ⟨not_or.mpr ⟨hselect.1, hcount.1⟩, by omega⟩
  · rw [List.mem_append, List.length_append, List.length_drop]
    exact ⟨not_or.mpr ⟨hinsert.1, fun hmem => htag (List.mem_of_mem_drop hmem)⟩, by omega⟩
  · exact ⟨htag, by omega⟩

/-- A result is sent as its description, its rows and its command tag. -/
theorem spells_writeResult {formats : FloatFormat} {result : Result} (h : result.Sendable formats) :
    Spells (writeResult formats result) (result.replies formats) := by
  have htag := pgCommandTag_spec h
  have hcomplete := spells_one (reads_writeCommandComplete htag.1 htag.2)
  unfold writeResult Result.replies
  split_ifs
  · have hrows := spells_flatMap fun row hrow => @reads_writeDataRow _ _ h row hrow
    exact ((spells_one (reads_writeRowDescription h)).append hrows).append hcomplete
  · exact spells_nil.append hcomplete

end Vsql.Pg
