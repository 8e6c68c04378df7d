import Vsql.Foundation.Arrivals
import Vsql.Server.Messages
import Vsql.Wal.Reading

/-!
# A connection of a PostgreSQL client

What the client sends arrives in parts of any length.  The server reads a startup
message, which may come after requests for SSL, and then one query after the other.  A
write to the client can fail after a part of it, and nothing is sent after that.
-/

namespace Vsql.Pg

open Foundation Foundation.Reader
open Rows (ByteReader readU8 readU8s readInt reads_readU8 reads_readU8s reads_readInt pastEnd)

/-- The connection takes `complete` writes, and then the next one fails after `part` bytes. -/
structure Writes where
  complete : Nat
  part : Nat
  failure : Bytes

/-- `sent` is what `flush` has written to the connection. -/
structure PGConn where
  input : Arriving UInt8
  out : Bytes
  sent : Bytes
  writes : Writes

namespace PGConn

/-- All that the client sends from here on. -/
def unread (c : PGConn) : Bytes := c.input.rest

def replies (c : PGConn) : Bytes × Bytes × Writes := (c.out, c.sent, c.writes)

theorem of_replies {c c' : PGConn} (h : c'.replies = c.replies) :
    c'.out = c.out ∧ c'.sent = c.sent ∧ c'.writes = c.writes := by
  simpa only [replies, Prod.mk.injEq] using h

def write (data : Bytes) (c : PGConn) : PGConn := { c with out := c.out ++ data }

end PGConn

/-- An error has the text that the server logs. -/
abbrev FromClient (α : Type) := EStateM Bytes PGConn α

/-! ## What the server sends -/

def cannotWrite (err : Bytes) : Bytes := ascii "cannot write to tcp connection: " ++ err

/-- What was to be sent is kept when it cannot be. -/
def flush : FromClient Unit := fun c =>
  match c.writes.complete with
  | 0 =>
      .error (cannotWrite c.writes.failure)
        { c with sent := c.sent ++ c.out.take c.writes.part }
  | complete + 1 =>
      .ok () { c with out := [], sent := c.sent ++ c.out, writes := { c.writes with complete } }

/-- Messages, and the flush that follows them. -/
def send (data : Bytes) : FromClient Unit := do
  modify fun c => c.write data
  flush

/-- What comes of writes with these bytes, one after the other. -/
def delivered (part : Nat) : (complete : Nat) → List Bytes → Bytes
  | _, [] => []
  | 0, data :: _ => data.take part
  | complete + 1, data :: later => data ++ delivered part complete later

theorem delivered_nil (part complete : Nat) : delivered part complete [] = [] := by
  cases complete <;> rfl

theorem delivered_add (part complete : Nat) (written later : List Bytes) :
    delivered part (written.length + complete) (written ++ later) =
      written.flatten ++ delivered part complete later := by
  induction written with
  | nil => simp
  | cons data written ih =>
      have hlength : (data :: written).length + complete = written.length + complete + 1 := by
        rw [List.length_cons]
        omega
      rw [hlength, List.cons_append, delivered, ih, List.flatten_cons, List.append_assoc]

/-- Nothing is cut off when no write fails. -/
theorem delivered_of_length_le {part complete : Nat} {written : List Bytes}
    (h : written.length ≤ complete) : delivered part complete written = written.flatten := by
  have hadd := delivered_add part (complete - written.length) written []
  rwa [delivered_nil, List.append_nil, List.append_nil, Nat.add_sub_cancel' h] at hadd

theorem send_of_zero {c : PGConn} (data : Bytes) (hout : c.out = [])
    (h : c.writes.complete = 0) :
    send data c = .error (cannotWrite c.writes.failure)
      { c with out := data, sent := c.sent ++ data.take c.writes.part } := by
  change flush (c.write data) = _
  simp only [flush, PGConn.write, h, hout, List.nil_append]

theorem send_of_succ {c : PGConn} {complete : Nat} (data : Bytes) (hout : c.out = [])
    (h : c.writes.complete = complete + 1) :
    send data c = .ok ()
      { c with sent := c.sent ++ data, writes := { c.writes with complete } } := by
  change flush (c.write data) = _
  simp only [flush, PGConn.write, h, hout, List.nil_append]

/-! ## What the server reads -/

def connectionClosed : Bytes := ascii "connection closed"

def readBytes (n : Nat) : FromClient Bytes := fun c =>
  match Arriving.fill n c.input.received c.input.arrivals with
  | (true, input) =>
      .ok (input.received.take n)
        { c with input := { input with received := input.received.drop n } }
  | (false, input) => .error connectionClosed { c with input }

def readByte : FromClient UInt8 := do
  let bytes ← readBytes 1
  pure (bytes.headD 0)

def readInt32 : FromClient Int := do
  let bytes ← readBytes 4
  pure (Rows.signed 4 (ofBigEndian bytes))

def readTextFrom : (fuel : Nat) → (bytes : Bytes) → FromClient Bytes
  | 0, _ => throw connectionClosed
  | fuel + 1, bytes => do
      let b ← readByte
      if b = 0 then pure bytes else readTextFrom fuel (bytes ++ [b])

/-- `read_string`: there is no text longer than all that is sent. -/
def readText : FromClient Bytes := fun c => readTextFrom (c.unread.length + 1) [] c

def sslRequest : Int := 80877103

/-- The name and the value of parameters are read up to the length of the message. -/
def readParametersFrom : (fuel : Nat) → (msgLen n : Int) → (database : Bytes) → FromClient Bytes
  | 0, _, _, _ => throw connectionClosed
  | fuel + 1, msgLen, n, database =>
      if n < int32 (msgLen - 1) then do
        let name ← readText
        let value ← readText
        readParametersFrom fuel msgLen
          (int32 (n + ((name.length + 1) + (value.length + 1))))
          (if name = ascii "database" then value else database)
      else pure database

def readParameters (msgLen : Int) : FromClient Bytes := fun c =>
  readParametersFrom (c.unread.length + 1) msgLen 8 [] c

def readDatabase (msgLen : Int) : FromClient Bytes := do
  let database ← readParameters msgLen
  let terminator ← readByte
  if terminator ≠ 0 then throw (ascii "missing terminating zero byte") else pure database

def readStartupMessageFrom : (fuel : Nat) → FromClient Bytes
  | 0 => throw connectionClosed
  | fuel + 1 => do
      let msgLen ← readInt32
      let version ← readInt32
      if version = sslRequest then do
        send (writeByte (byteOf 'N'))
        readStartupMessageFrom fuel
      else readDatabase msgLen

def readStartupMessage : FromClient Bytes := fun c =>
  readStartupMessageFrom (c.unread.length + 1) c

def accept : FromClient Bytes := readStartupMessage

/-- The length is not used: the text of a query ends with a zero byte. -/
def readQuery : FromClient Bytes := do
  let _ ← readInt32
  readText

/-! ## What the bytes of a client ask -/

def parametersFrom : (fuel : Nat) → (msgLen n : Int) → (database : Bytes) → ByteReader Bytes
  | 0, _, _, _ => throw invalidMessage
  | fuel + 1, msgLen, n, database =>
      if n < int32 (msgLen - 1) then do
        let name ← readString
        let value ← readString
        parametersFrom fuel msgLen
          (int32 (n + ((name.length + 1) + (value.length + 1))))
          (if name = ascii "database" then value else database)
      else pure database

def startupParameters (msgLen : Int) : ByteReader Bytes := do
  let database ← fun input => parametersFrom (input.length + 1) msgLen 8 [] input
  let terminator ← readU8
  if terminator ≠ 0 then throw invalidMessage else pure database

/-- One message of a client that starts: the database, or a request for SSL. -/
def startupMessage : ByteReader (Option Bytes) := do
  let msgLen ← readInt 4
  let version ← readInt 4
  if version = sslRequest then pure none else some <$> startupParameters msgLen

/-- How many requests for SSL there are, and then the database. -/
def startupFrom : (fuel : Nat) → Bytes → Nat × Option (Bytes × Bytes)
  | 0, _ => (0, none)
  | fuel + 1, input =>
      match startupMessage.run input with
      | .error _ => (0, none)
      | .ok (some database, rest) => (0, some (database, rest))
      | .ok (none, rest) =>
          let (requests, started) := startupFrom fuel rest
          (requests + 1, started)

def startup (input : Bytes) : Nat × Option (Bytes × Bytes) := startupFrom (input.length + 1) input

/-- A query, or the end of the connection. -/
def request : ByteReader (Option Bytes) := do
  let msgType ← readU8
  if msgType = byteOf 'Q' then do
    let _ ← readInt 4
    some <$> readString
  else if msgType = byteOf 'X' then pure none
  else throw invalidMessage

def queriesFrom : (fuel : Nat) → Bytes → List Bytes
  | 0, _ => []
  | fuel + 1, input =>
      match request.run input with
      | .ok (some query, rest) => query :: queriesFrom fuel rest
      | _ => []

/-- The queries that are asked before the connection ends. -/
def queries (input : Bytes) : List Bytes := queriesFrom (input.length + 1) input

/-! ## The server reads what the bytes ask -/

/-- The connection is read as its bytes are, and nothing is sent. -/
def Reading {α : Type} (x : FromClient α) (r : ByteReader α) : Prop :=
  Follows PGConn.unread PGConn.replies x r

theorem reading_readBytes (n : Nat) : Reading (readBytes n) (readU8s n) := by
  intro c
  obtain ⟨hread, hok⟩ := Arriving.fill_spec n c.input.received c.input.arrivals
  unfold readBytes readU8s take
  generalize Arriving.fill n c.input.received c.input.arrivals = filled at hread hok
  obtain ⟨enough, input⟩ := filled
  have hunread : c.unread = Arriving.rest ⟨c.input.received, c.input.arrivals⟩ := rfl
  cases enough with
  | false =>
      have hshort : ¬n ≤ c.unread.length := by
        rw [hunread]
        exact of_decide_eq_false hread.symm
      rw [if_neg hshort]
      exact .error rfl
  | true =>
      have hlong : n ≤ c.unread.length := by
        rw [hunread]
        exact of_decide_eq_true hread.symm
      obtain ⟨hrest, hreceived⟩ := hok rfl
      rw [if_pos hlong, hunread, ← hrest]
      have htake : input.rest.take n = input.received.take n := by
        rw [Arriving.rest, List.take_append_of_le_length hreceived]
      have hdrop : input.rest.drop n =
          Arriving.rest ⟨input.received.drop n, input.arrivals⟩ := by
        rw [Arriving.rest, List.drop_append_of_le_length hreceived]
        rfl
      rw [htake, hdrop]
      exact .ok rfl

theorem reading_readByte : Reading readByte readU8 :=
  (reading_readBytes 1).bind fun _ => follows_pure _

theorem reading_readInt32 : Reading readInt32 (readInt 4) := by
  have hread :
      Reading readInt32 (readU8s 4 >>= fun data => pure (Rows.signed 4 (ofBigEndian data))) :=
    (reading_readBytes 4).bind fun _ => follows_pure _
  have heq : readInt 4 = readU8s 4 >>= fun data => pure (Rows.signed 4 (ofBigEndian data)) := by
    simp [readInt, Rows.readNat]
  rwa [heq]

theorem readU8_cons (b : UInt8) (rest : Bytes) : readU8 (b :: rest) = .ok (b, rest) :=
  reads_readU8 b rest

theorem readString_zero (rest : Bytes) : readString (0 :: rest) = .ok ([], rest) :=
  reads_readString (s := []) (by simp) rest

theorem readString_cons {b : UInt8} (h : b ≠ 0) (rest : Bytes) :
    readString (b :: rest) = (List.cons b <$> readString) rest := by
  rw [map_eq_pure_bind]
  change _ = readString rest >>= fun p => Except.ok (b :: p.1, p.2)
  have hcontains : List.contains (b :: rest) 0 = rest.contains 0 := by simp [Ne.symm h]
  unfold readString
  rw [hcontains]
  split
  · simp [h]
    rfl
  · rfl

theorem eq_cons_of_readU8 {input rest : Bytes} {b : UInt8} (h : readU8 input = .ok (b, rest)) :
    input = b :: rest := by
  cases input with
  | nil => cases h
  | cons a input =>
      rw [readU8_cons] at h
      cases h
      rfl

theorem agrees_readTextFrom {fuel : Nat} {bytes : Bytes} {c : PGConn} (h : c.unread.length < fuel) :
    AgreesAt PGConn.unread PGConn.replies c (readTextFrom fuel bytes c)
      (((bytes ++ ·) <$> readString) c.unread) := by
  induction fuel generalizing bytes c with
  | zero => omega
  | succ fuel ih =>
      have hstep : AgreesAt PGConn.unread PGConn.replies c (readTextFrom (fuel + 1) bytes c)
          ((readU8 >>= fun b => if b = 0 then pure bytes
            else (bytes ++ [b] ++ ·) <$> readString) c.unread) := by
        refine (reading_readByte c).bind fun b c' hread => ?_
        have hcons := eq_cons_of_readU8 hread
        rw [hcons, List.length_cons] at h
        split
        · exact follows_pure bytes c'
        · exact ih (by omega)
      cases hunread : c.unread with
      | nil =>
          rw [hunread] at hstep
          exact hstep.of_error
      | cons b rest =>
          rw [hunread] at hstep
          have hread : (readU8 >>= fun b => if b = 0 then pure bytes
              else (bytes ++ [b] ++ ·) <$> readString) (b :: rest) =
              ((bytes ++ ·) <$> readString) (b :: rest) := by
            rw [Reader.bind_apply, readU8_cons]
            change (if b = 0 then pure bytes else (bytes ++ [b] ++ ·) <$> readString) rest = _
            split
            · next hzero =>
                rw [hzero, Reader.map_apply, readString_zero]
                change Except.ok (bytes, rest) = Except.ok (bytes ++ [], rest)
                rw [List.append_nil]
            · next hne =>
                rw [Reader.map_apply, Reader.map_apply, readString_cons hne, Reader.map_apply]
                cases readString rest with
                | error e => rfl
                | ok p =>
                    change Except.ok (bytes ++ [b] ++ p.1, p.2) = Except.ok (bytes ++ b :: p.1, p.2)
                    rw [List.append_assoc]
                    rfl
          rwa [← hread]

theorem reading_readText : Reading readText readString := by
  intro c
  have hread := @agrees_readTextFrom (c.unread.length + 1) [] c (by omega)
  have hid : (([] ++ ·) : Bytes → Bytes) <$> readString = readString := by simp
  rwa [hid] at hread

theorem reading_readParametersFrom (fuel : Nat) (msgLen n : Int) (database : Bytes) :
    Reading (readParametersFrom fuel msgLen n database)
      (parametersFrom fuel msgLen n database) := by
  induction fuel generalizing n database with
  | zero => exact follows_throw _ _
  | succ fuel ih =>
      refine Follows.ite ?_ (follows_pure database)
      refine reading_readText.bind fun name => ?_
      refine reading_readText.bind fun value => ?_
      exact ih _ _

theorem reading_readParameters (msgLen : Int) : Reading (readParameters msgLen)
    (fun input => parametersFrom (input.length + 1) msgLen 8 [] input) :=
  Follows.sized fun k => reading_readParametersFrom (k + 1) msgLen 8 []

theorem reading_readDatabase (msgLen : Int) :
    Reading (readDatabase msgLen) (startupParameters msgLen) := by
  refine (reading_readParameters msgLen).bind fun database => ?_
  refine reading_readByte.bind fun terminator => ?_
  exact Follows.ite (follows_throw _ _) (follows_pure _)

theorem reading_readQuery : Reading readQuery (do let _ ← readInt 4; readString) :=
  reading_readInt32.bind fun _ => reading_readText

/-! ## Starting -/

/-- The byte that a request for SSL is answered with. -/
def unwilling : Bytes := writeByte (byteOf 'N')

theorem startupFrom_ok_some {fuel : Nat} {input rest database : Bytes}
    (h : startupMessage input = .ok (some database, rest)) :
    startupFrom (fuel + 1) input = (0, some (database, rest)) := by
  have hrun : startupMessage.run input = .ok (some database, rest) := h
  rw [startupFrom, hrun]

theorem startupFrom_ok_none {fuel : Nat} {input rest : Bytes}
    (h : startupMessage input = .ok (none, rest)) :
    startupFrom (fuel + 1) input =
      ((startupFrom fuel rest).1 + 1, (startupFrom fuel rest).2) := by
  have hrun : startupMessage.run input = .ok (none, rest) := h
  rw [startupFrom, hrun]

theorem startupFrom_error {fuel : Nat} {input : Bytes} {e : Failure}
    (h : startupMessage input = .error e) : startupFrom (fuel + 1) input = (0, none) := by
  have hrun : startupMessage.run input = .error e := h
  rw [startupFrom, hrun]

/-- What the client is sent while it starts, and what is left for the queries.  It is lost
when a request for SSL cannot be answered. -/
inductive Started (c : PGConn) : EStateM.Result Bytes PGConn Bytes →
    Nat × Option (Bytes × Bytes) → Prop where
  | ok {database : Bytes} {requests : Nat} {c' : PGConn} (out : c'.out = [])
      (sent : c'.sent = c.sent ++ (List.replicate requests unwilling).flatten)
      (complete : c.writes.complete = requests + c'.writes.complete)
      (part : c'.writes.part = c.writes.part) :
      Started c (.ok database c') (requests, some (database, c'.unread))
  | error {e : Bytes} {requests : Nat} {started : Option (Bytes × Bytes)} {c' : PGConn}
      (ended : started = none ∨ c.writes.complete < requests)
      (sent : c'.sent = c.sent ++ delivered c.writes.part c.writes.complete
        (List.replicate requests unwilling)) :
      Started c (.error e c') (requests, started)

/-- One message, without the answer to it. -/
def readStartup : FromClient (Option Bytes) := do
  let msgLen ← readInt32
  let version ← readInt32
  if version = sslRequest then pure none else some <$> readDatabase msgLen

theorem reading_readStartup : Reading readStartup startupMessage := by
  refine reading_readInt32.bind fun msgLen => ?_
  refine reading_readInt32.bind fun version => ?_
  exact Follows.ite (follows_pure none) ((reading_readDatabase msgLen).map some)

theorem readStartupMessageFrom_succ (fuel : Nat) :
    readStartupMessageFrom (fuel + 1) = readStartup >>= fun started =>
      match started with
      | none => do
          send unwilling
          readStartupMessageFrom fuel
      | some database => pure database := by
  simp only [readStartup, bind_assoc]
  rw [readStartupMessageFrom]
  congr 1
  funext msgLen
  congr 1
  funext version
  split
  · rfl
  · simp

/-- A request for SSL is answered before what comes after it is read. -/
theorem Started.cons {c c' : PGConn} {result : EStateM.Result Bytes PGConn Bytes}
    {requests complete : Nat} {started : Option (Bytes × Bytes)}
    (hcomplete : c.writes.complete = complete + 1) (hcomplete' : c'.writes.complete = complete)
    (hpart : c'.writes.part = c.writes.part) (hsent : c'.sent = c.sent ++ unwilling)
    (h : Started c' result (requests, started)) : Started c result (requests + 1, started) := by
  cases h with
  | ok out sent complete part =>
      refine .ok out ?_ (by omega) (part.trans hpart)
      rw [sent, hsent, List.replicate_succ, List.flatten_cons, List.append_assoc]
  | error ended sent =>
      refine .error (ended.imp_right (by omega)) ?_
      rw [sent, hsent, hcomplete, hcomplete', hpart, List.replicate_succ, delivered,
        List.append_assoc]

theorem started_readStartupMessageFrom (fuel : Nat) {c : PGConn} (hout : c.out = []) :
    Started c (readStartupMessageFrom fuel c) (startupFrom fuel c.unread) := by
  induction fuel generalizing c with
  | zero => exact .error (.inl rfl) (by simp [delivered_nil])
  | succ fuel ih =>
      rw [readStartupMessageFrom_succ]
      change Started c (EStateM.bind readStartup _ c) _
      unfold EStateM.bind
      have hread := reading_readStartup c
      generalize readStartup c = result at hread
      generalize hr : startupMessage c.unread = read at hread
      cases hread with
      | @error e e' c' hframe =>
          have hsent := (PGConn.of_replies hframe).2.1
          rw [startupFrom_error hr]
          exact .error (.inl rfl) (by simp [hsent, delivered_nil])
      | @ok started c' hframe =>
          obtain ⟨hout', hsent', hwrites⟩ := PGConn.of_replies hframe
          cases started with
          | some database =>
              rw [startupFrom_ok_some hr]
              exact .ok (hout'.trans hout) (by simp [hsent']) (by simp [hwrites])
                (by rw [hwrites])
          | none =>
              rw [startupFrom_ok_none hr]
              change Started c (EStateM.bind (send unwilling) _ c') _
              unfold EStateM.bind
              cases hcomplete : c.writes.complete with
              | zero =>
                  rw [send_of_zero unwilling (hout'.trans hout) (by rw [hwrites, hcomplete])]
                  refine .error (.inr (by omega)) ?_
                  rw [hcomplete, hsent', hwrites, List.replicate_succ, delivered]
              | succ complete =>
                  rw [send_of_succ unwilling (hout'.trans hout) (by rw [hwrites, hcomplete])]
                  have hpart : c'.writes.part = c.writes.part := congrArg Writes.part hwrites
                  have hanswered : c'.sent ++ unwilling = c.sent ++ unwilling := by rw [hsent']
                  refine Started.cons hcomplete ?_ ?_ ?_ (ih (hout'.trans hout))
                  exacts [rfl, hpart, hanswered]

theorem started_accept {c : PGConn} (hout : c.out = []) :
    Started c (accept c) (startup c.unread) :=
  started_readStartupMessageFrom _ hout

/-! ## Every message has bytes -/

theorem takes_readInt (width : Nat) : Takes width (readInt width) :=
  ((takes_take pastEnd width).bind fun _ => takes_pure _).bind fun _ => takes_pure _

theorem takes_readU8 : Takes 1 readU8 := (takes_take pastEnd 1).bind fun _ => takes_pure _

theorem takes_readString : Takes 1 readString := by
  intro input s rest h
  unfold readString at h
  split at h
  · next hcontains =>
      have hzero := List.contains_iff_mem.mp hcontains
      cases h
      have hne : input.dropWhile (· ≠ 0) ≠ [] := by
        rw [Ne, List.dropWhile_eq_nil_iff]
        intro hall
        simpa using hall 0 hzero
      have hle := (List.dropWhile_suffix (l := input) (· ≠ 0)).length_le
      have hpos := List.length_pos_iff.mpr hne
      rw [List.length_drop]
      omega
  · cases h

theorem takes_request : Takes 1 request := by
  refine Takes.mono (n := 1 + 0) (takes_readU8.bind fun msgType => ?_) (by omega)
  refine Takes.ite ?_ (Takes.ite (takes_pure none) (takes_throw 0 _))
  exact ((takes_readInt 4).bind fun _ => takes_readString.map some).mono (by omega)

theorem takes_parametersFrom (fuel : Nat) (msgLen n : Int) (database : Bytes) :
    Takes 0 (parametersFrom fuel msgLen n database) := by
  induction fuel generalizing n database with
  | zero => exact takes_throw 0 _
  | succ fuel ih =>
      refine Takes.ite ?_ (takes_pure database)
      exact (takes_readString.bind fun _ => takes_readString.bind fun _ => ih _ _).mono (by omega)

theorem takes_startupMessage : Takes 8 startupMessage := by
  refine Takes.mono (n := 4 + (4 + 0)) ((takes_readInt 4).bind fun msgLen =>
    (takes_readInt 4).bind fun version => ?_) (by omega)
  refine Takes.ite (takes_pure none) (Takes.map some ?_)
  have hparameters : Takes 0 fun input => parametersFrom (input.length + 1) msgLen 8 [] input :=
    fun input => takes_parametersFrom (input.length + 1) msgLen 8 [] input
  refine Takes.mono (n := 0 + (1 + 0)) (hparameters.bind fun database =>
    takes_readU8.bind fun terminator => ?_) (by omega)
  exact Takes.ite (takes_throw 0 _) (takes_pure database)

theorem queriesFrom_eq {fuel fuel' : Nat} {input : Bytes} (h : input.length < fuel)
    (h' : input.length < fuel') : queriesFrom fuel input = queriesFrom fuel' input := by
  induction fuel generalizing fuel' input with
  | zero => omega
  | succ fuel ih =>
      obtain ⟨fuel', rfl⟩ : ∃ n, fuel' = n + 1 := ⟨fuel' - 1, by omega⟩
      rw [queriesFrom, queriesFrom]
      cases hread : request.run input with
      | error e => rfl
      | ok p =>
          obtain ⟨_ | query, rest⟩ := p
          · rfl
          · have htakes := takes_request input _ rest hread
            exact congrArg (query :: ·) (ih (by omega) (by omega))

theorem startupFrom_eq {fuel fuel' : Nat} {input : Bytes} (h : input.length < fuel)
    (h' : input.length < fuel') : startupFrom fuel input = startupFrom fuel' input := by
  induction fuel generalizing fuel' input with
  | zero => omega
  | succ fuel ih =>
      obtain ⟨fuel', rfl⟩ : ∃ n, fuel' = n + 1 := ⟨fuel' - 1, by omega⟩
      cases hread : startupMessage input with
      | error e => rw [startupFrom_error hread, startupFrom_error hread]
      | ok p =>
          obtain ⟨_ | database, rest⟩ := p
          · have htakes := takes_startupMessage input _ rest hread
            rw [startupFrom_ok_none hread, startupFrom_ok_none hread,
              @ih fuel' rest (by omega) (by omega)]
          · rw [startupFrom_ok_some hread, startupFrom_ok_some hread]

theorem queries_cons {input query rest : Bytes} (h : request input = .ok (some query, rest)) :
    queries input = query :: queries rest := by
  have hrun : request.run input = .ok (some query, rest) := h
  have htakes := takes_request input _ rest h
  rw [queries, queriesFrom, hrun]
  exact congrArg (query :: ·) (queriesFrom_eq (by omega) (by omega))

theorem queries_end {input : Bytes} (h : ∀ query rest, request input ≠ .ok (some query, rest)) :
    queries input = [] := by
  rw [queries, queriesFrom]
  split
  · next query rest hrun => exact absurd hrun (h query rest)
  · rfl

theorem startup_sslRequest {input rest : Bytes} (h : startupMessage input = .ok (none, rest)) :
    startup input = ((startup rest).1 + 1, (startup rest).2) := by
  have htakes := takes_startupMessage input _ rest h
  rw [startup, startupFrom_ok_none h, startup,
    @startupFrom_eq input.length (rest.length + 1) rest (by omega) (by omega)]

end Vsql.Pg
