import Vsql.Lexer
import Vsql.Server.Connection

/-!
# Sessions of PostgreSQL clients

A client is handled on its own: it starts, its queries are answered one after the other, and
what it has not committed is rolled back when it is gone.  A client reads an answer to each
of its queries.  When one cannot be written, only that one is cut off, and no query is run
after it.
-/

namespace Vsql.Pg

open Foundation Foundation.Reader
open Rows (ByteReader readU8 readInt reads_readU8)

/-- What the server uses of a `Connection` to a database with the state `σ`. -/
structure Connection (σ : Type) where
  query : Bytes → σ → Except IError Result × σ
  warnings : σ → List IError
  clearWarnings : σ → σ
  rollbackAfterError : σ → σ
  /-- A function that has the same value for all arguments. -/
  registerFunction : (prototype value : Bytes) → σ → Option IError × σ
  registerVirtualTable : (createTable : Bytes) → (rows : List (List Bytes)) → σ → Option IError × σ
  runes : Bytes → Text
  normalizeNfc : Text → Text
  formats : FloatFormat

structure Server (σ : Type) extends Connection σ where
  connect : (database : Bytes) → Except IError σ
  selectWithoutFrom : Bool

structure Session (σ : Type) where
  db : σ
  conn : PGConn

variable {σ : Type}

def endState {ε α : Type} : EStateM.Result ε σ α → σ
  | .ok _ s => s
  | .error _ s => s

/-- An error has the text that the server logs. -/
abbrev Handling (σ α : Type) := EStateM Bytes (Session σ) α

def onDb {α : Type} (x : EStateM Bytes σ α) : Handling σ α := fun s =>
  match x s.db with
  | .ok a db => .ok a { s with db }
  | .error e db => .error e { s with db }

def onConn {α : Type} (x : FromClient α) : Handling σ α := fun s =>
  match x s.conn with
  | .ok a conn => .ok a { s with conn }
  | .error e conn => .error e { s with conn }

theorem onConn_bind {α β : Type} (x : FromClient α) (f : α → FromClient β) :
    (onConn (x >>= f) : Handling σ β) = onConn x >>= fun a => onConn (f a) := by
  funext s
  change onConn (EStateM.bind x f) s = EStateM.bind (onConn x) (fun a => onConn (f a)) s
  simp only [onConn, EStateM.bind]
  cases x s.conn <;> rfl

theorem bind_of_ok {α β : Type} {x : Handling σ α} {f : α → Handling σ β} {s s' : Session σ} {a : α}
    (h : x s = .ok a s') : EStateM.bind x f s = f a s' := by
  rw [EStateM.bind, h]

theorem bind_of_error {α β : Type} {x : Handling σ α} {f : α → Handling σ β} {s s' : Session σ}
    {e : Bytes} (h : x s = .error e s') : EStateM.bind x f s = .error e s' := by
  rw [EStateM.bind, h]

theorem onConn_send_of_zero {s : Session σ} (data : Bytes) (hout : s.conn.out = [])
    (h : s.conn.writes.complete = 0) :
    onConn (send data) s = .error (cannotWrite s.conn.writes.failure)
      ⟨s.db, { s.conn with out := data, sent := s.conn.sent ++ data.take s.conn.writes.part }⟩ := by
  rw [onConn, send_of_zero data hout h]

theorem onConn_send_of_succ {s : Session σ} {complete : Nat} (data : Bytes) (hout : s.conn.out = [])
    (h : s.conn.writes.complete = complete + 1) :
    onConn (send data) s = .ok () ⟨s.db, { s.conn with
      sent := s.conn.sent ++ data, writes := { s.conn.writes with complete } }⟩ := by
  rw [onConn, send_of_succ data hout h]

/-! ## Queries -/

def containsText (s text : Bytes) : Bool := decide (s <:+: text)

/-- `trim` of a string. -/
def trimBytes (cutset s : Bytes) : Bytes :=
  ((s.dropWhile cutset.contains).reverse.dropWhile cutset.contains).reverse

namespace Connection

variable (d : Connection σ)

def isEmptyQuery (query : Bytes) : Bool :=
  match Lexer.tokenize d.normalizeNfc (d.runes query) with
  | .ok tokens => tokens.all (·.token == "OPERATOR_SEMICOLON")
  | .error _ => false

/-- `query`, with a failure that ends the connection. -/
def ask (query : Bytes) : EStateM Bytes σ Result := fun db =>
  match d.query query db with
  | (.ok result, db) => .ok result db
  | (.error err, db) => .error err.msg db

def isState (code : Bytes) (err : IError) : Bool :=
  match err.sqlstate with
  | some s => s.code == code
  | none => false

/-- What is there already is not an error. -/
def unlessState (code : Bytes) (register : σ → Option IError × σ) : EStateM Bytes σ Unit :=
  fun db =>
    match register db with
    | (none, db) => .ok () db
    | (some err, db) => if isState code err then .ok () db else .error err.msg db

def pgVersion : Bytes :=
  ascii ("PostgreSQL 9.3.10 on x86_64-unknown-linux-gnu, compiled by gcc " ++
    "(Ubuntu 4.8.2-19ubuntu1) 4.8.2, 64-bit")

def pgCurrentSetting : Bytes := ascii "90310"

def registerPgFunctions : EStateM Bytes σ Unit := do
  unlessState (ascii "42723") (d.registerFunction (ascii "version() varchar") pgVersion)
  unlessState (ascii "42723")
    (d.registerFunction (ascii "current_setting(varchar) varchar") pgCurrentSetting)

def registerPgVirtualTables : EStateM Bytes σ Unit :=
  unlessState (ascii "42P07")
    (d.registerVirtualTable (ascii "CREATE TABLE pg_database ( datname VARCHAR(255) )")
      [[ascii "vsql"]])

def createSinglerow : EStateM Bytes σ Unit := do
  modify fun db => (d.query (ascii "CREATE TABLE singlerow (x INT)") db).2
  let result ← d.ask (ascii "SELECT * FROM singlerow")
  if result.rows.length = 0 then
    let _ ← d.ask (ascii "INSERT INTO singlerow (x) VALUES (0)")

end Connection

namespace Server

variable (server : Server σ)

def prepare : EStateM Bytes σ Unit := do
  server.registerPgFunctions
  server.registerPgVirtualTables
  if server.selectWithoutFrom then server.createSinglerow

/-- The statement that a query is run as. -/
def statement (query : Bytes) : Bytes :=
  let queryUpper := query.map upperByte
  if server.selectWithoutFrom && containsText (ascii "SELECT") queryUpper &&
      !containsText (ascii "FROM") queryUpper then
    trimBytes (ascii "; ") query ++ ascii " FROM singlerow;"
  else query

/-- The query is run before anything is sent for it. -/
def answer (query : Bytes) : Handling σ Unit := fun s =>
  if server.isEmptyQuery query then
    onConn (send (writeEmptyQueryResponse ++ writeReadyForQuery)) s
  else
    match server.query (server.statement query) (server.clearWarnings s.db) with
    | (.ok result, db) =>
        let data := (server.warnings db).flatMap writeNotice ++ writeResult server.formats result
        onConn (send (data ++ writeReadyForQuery)) { s with db }
    | (.error err, db) =>
        onConn (send (writeErrorResult err ++ writeReadyForQuery)) { s with db }

def unknownMessage (msgType : UInt8) : Bytes :=
  ascii "unknown message: " ++ (intText msgType.toNat).utf8

def serveFrom : (fuel : Nat) → Handling σ Unit
  | 0 => throw connectionClosed
  | fuel + 1 => do
      let msgType ← onConn readByte
      if msgType = byteOf 'Q' then do
        let query ← onConn readQuery
        server.answer query
        serveFrom fuel
      else if msgType = byteOf 'X' then pure ()
      else throw (unknownMessage msgType)

def serve : Handling σ Unit := fun s => server.serveFrom (s.conn.unread.length + 1) s

def writeReady : Handling σ Unit := onConn (send (writeAuthenticationOk ++ writeReadyForQuery))

def handleConn : Handling σ Unit := do
  onDb server.prepare
  writeReady
  server.serve

/-- The state of the database that the client was connected to, and of its connection. -/
def handleClient (c : PGConn) : Option σ × PGConn :=
  match accept c with
  | .error _ conn => (none, conn)
  | .ok database conn =>
      match server.connect database with
      | .error err => (none, endState (send (writeErrorResult err) conn))
      | .ok db =>
          let s := endState (server.handleConn ⟨db, conn⟩)
          (some (server.rollbackAfterError s.db), s.conn)

/-! ## What a client is told -/

def ready : Reply := .readyForQuery (byteOf 'I')

def answered (query : Bytes) (db : σ) : List Reply × σ :=
  if server.isEmptyQuery query then ([.emptyQueryResponse, ready], db)
  else
    match server.query (server.statement query) (server.clearWarnings db) with
    | (.ok result, db) =>
        ((server.warnings db).map IError.noticeReply ++
          result.replies server.formats ++ [ready], db)
    | (.error err, db) => ([err.errorReply, ready], db)

/-- The replies to each of the queries. -/
def transcript : List Bytes → σ → List (List Reply) × σ
  | [], db => ([], db)
  | query :: queries, db =>
      let (replies, db) := server.answered query db
      let (later, db) := transcript queries db
      (replies :: later, db)

/-- A client that is connected to a database and asks queries. -/
def conversation (database : Bytes) (queries : List Bytes) : List (List Reply) × Option σ :=
  match server.connect database with
  | .error err => ([[err.errorReply]], none)
  | .ok db =>
      match server.prepare db with
      | .error _ db => ([], some (server.rollbackAfterError db))
      | .ok _ db =>
          let (replies, db) := server.transcript queries db
          ([.authenticationOk, ready] :: replies, some (server.rollbackAfterError db))

/-- The queries that are run: the answer to the last one need not be written. -/
def asked (complete requests : Nat) (queries : List Bytes) : List Bytes :=
  queries.take (complete - requests)

/-- What a client is told that asks for SSL, for a database and then queries, while the
connection takes `complete` writes. -/
def reached (complete requests : Nat) (database : Bytes) (queries : List Bytes) :
    List (List Reply) × Option σ :=
  if complete < requests then ([], none)
  else server.conversation database (asked complete requests queries)

/-- What a client with these bytes is told. -/
def told (complete : Nat) (input : Bytes) : List (List Reply) × Option σ :=
  match startup input with
  | (_, none) => ([], none)
  | (requests, some (database, rest)) => server.reached complete requests database (queries rest)

/-! ## Lengths that fit -/

def AnswerSendable (query : Bytes) (db : σ) : Prop :=
  server.isEmptyQuery query = false →
    match server.query (server.statement query) (server.clearWarnings db) with
    | (.ok result, db) =>
        (∀ warning ∈ server.warnings db, warning.Sendable) ∧ result.Sendable server.formats
    | (.error err, _) => err.Sendable

def TranscriptSendable : List Bytes → σ → Prop
  | [], _ => True
  | query :: queries, db =>
      server.AnswerSendable query db ∧ TranscriptSendable queries (server.answered query db).2

/-- The texts and rows that the client is sent fit into messages. -/
def ConversationSendable (database : Bytes) (queries : List Bytes) : Prop :=
  match server.connect database with
  | .error err => err.Sendable
  | .ok db => ∀ db', server.prepare db = .ok () db' → server.TranscriptSendable queries db'

variable {server : Server σ}

/-! ## Answers -/

theorem spells_ready : Spells writeReadyForQuery [ready] := spells_one reads_writeReadyForQuery

/-- The messages of an answer are sent with one write, after the query was run. -/
theorem answer_spec {query : Bytes} {s : Session σ} (h : server.AnswerSendable query s.db) :
    ∃ data, Spells data (server.answered query s.db).1 ∧
      server.answer query s = onConn (send data) ⟨(server.answered query s.db).2, s.conn⟩ := by
  unfold AnswerSendable at h
  unfold answer answered
  cases hempty : server.isEmptyQuery query with
  | true =>
      exact ⟨_, (spells_one reads_writeEmptyQueryResponse).append spells_ready, rfl⟩
  | false =>
      have hsendable := h hempty
      generalize server.query (server.statement query) (server.clearWarnings s.db) = outcome
        at hsendable
      obtain ⟨err | result, db⟩ := outcome
      · exact ⟨_, (spells_one (reads_writeErrorResult hsendable)).append spells_ready, rfl⟩
      · have hnotices := spells_flatMap fun w hw => reads_writeNotice (hsendable.1 w hw)
        exact ⟨_, (hnotices.append (spells_writeResult hsendable.2)).append spells_ready, rfl⟩

/-- One message of a client that was connected. -/
def readRequest : FromClient (Option Bytes) := do
  let msgType ← readByte
  if msgType = byteOf 'Q' then some <$> readQuery
  else if msgType = byteOf 'X' then pure none
  else throw (unknownMessage msgType)

theorem reading_readRequest : Reading readRequest request := by
  refine reading_readByte.bind fun msgType => ?_
  refine Follows.ite ?_ (Follows.ite (follows_pure none) (follows_throw _ _))
  have heq : (do let _ ← readInt 4; some <$> readString) =
      (some <$> (do let _ ← readInt 4; readString) : ByteReader (Option Bytes)) := by
    simp
  rw [heq]
  exact reading_readQuery.map some

theorem serveFrom_succ (fuel : Nat) :
    server.serveFrom (fuel + 1) = onConn readRequest >>= fun asked =>
      match asked with
      | some query => do
          server.answer query
          server.serveFrom fuel
      | none => pure () := by
  rw [serveFrom, readRequest, onConn_bind, bind_assoc]
  congr 1
  funext msgType
  split
  · rw [map_eq_pure_bind, onConn_bind, bind_assoc]
    rfl
  · split <;> rfl

/-- The queries have been run between `s` and `s'`, and what could be written of their answers
has been sent. -/
structure Served (server : Server σ) (queries : List Bytes) (s s' : Session σ) : Prop where
  db : s'.db = (server.transcript queries s.db).2
  sent : ∃ written : List Bytes,
    List.Forall₂ Spells written (server.transcript queries s.db).1 ∧
      s'.conn.sent = s.conn.sent ++
        delivered s.conn.writes.part s.conn.writes.complete written

theorem served_nil {s s' : Session σ} (hdb : s'.db = s.db) (hsent : s'.conn.sent = s.conn.sent) :
    Served server [] s s' :=
  ⟨hdb, [], .nil, by rw [hsent, delivered_nil, List.append_nil]⟩

/-- An answer that cannot be written is the last one. -/
theorem Served.cut {query data : Bytes} {s s' : Session σ}
    (hdb : s'.db = (server.answered query s.db).2)
    (hspells : Spells data (server.answered query s.db).1) (hcomplete : s.conn.writes.complete = 0)
    (hsent : s'.conn.sent = s.conn.sent ++ data.take s.conn.writes.part) :
    Served server [query] s s' :=
  ⟨hdb, [data], .cons hspells .nil, by rw [hsent, hcomplete, delivered]⟩

theorem Served.cons {query data : Bytes} {queries : List Bytes} {complete : Nat}
    {s s' s'' : Session σ} (hdb : s'.db = (server.answered query s.db).2)
    (hspells : Spells data (server.answered query s.db).1)
    (hcomplete : s.conn.writes.complete = complete + 1)
    (hwrites : s'.conn.writes = { s.conn.writes with complete })
    (hsent : s'.conn.sent = s.conn.sent ++ data) (hlater : Served server queries s' s'') :
    Served server (query :: queries) s s'' := by
  obtain ⟨hdb', written, hspells', hsent'⟩ := hlater
  rw [hdb] at hdb' hspells'
  refine ⟨hdb', data :: written, .cons hspells hspells', ?_⟩
  rw [hsent', hsent, hwrites, hcomplete, delivered, List.append_assoc]

/-- Each query is answered before the next one is read, while the connection takes the
answers. -/
theorem served_serveFrom (fuel : Nat) {s : Session σ} (hout : s.conn.out = [])
    (h : server.TranscriptSendable
      ((queriesFrom fuel s.conn.unread).take (s.conn.writes.complete + 1)) s.db) :
    Served server ((queriesFrom fuel s.conn.unread).take (s.conn.writes.complete + 1)) s
      (endState (server.serveFrom fuel s)) := by
  induction fuel generalizing s with
  | zero => exact served_nil rfl rfl
  | succ fuel ih =>
      rw [serveFrom_succ]
      change Served server _ s (endState (EStateM.bind (onConn readRequest) _ s))
      unfold EStateM.bind onConn
      rw [queriesFrom] at h ⊢
      have hread := reading_readRequest s.conn
      change AgreesAt PGConn.unread PGConn.replies s.conn (readRequest s.conn)
        (request.run s.conn.unread) at hread
      generalize readRequest s.conn = result at hread
      generalize request.run s.conn.unread = read at hread h
      cases hread with
      | error hframe => exact served_nil rfl (PGConn.of_replies hframe).2.1
      | @ok asked conn hframe =>
          obtain ⟨hout', hsent, hwrites⟩ := PGConn.of_replies hframe
          cases asked with
          | none => exact served_nil rfl hsent
          | some query =>
              rw [List.take_succ_cons] at h ⊢
              obtain ⟨hanswer, hlater⟩ := h
              obtain ⟨data, hspells, hdata⟩ := @answer_spec _ server query ⟨s.db, conn⟩ hanswer
              change Served server _ s
                (endState (EStateM.bind (server.answer query) _ ⟨s.db, conn⟩))
              rw [← hwrites] at hlater ⊢
              cases hcomplete : conn.writes.complete with
              | zero =>
                  rw [bind_of_error (hdata.trans (onConn_send_of_zero data (hout'.trans hout)
                    hcomplete)), List.take_zero]
                  refine Served.cut rfl hspells (hwrites ▸ hcomplete) ?_
                  rw [← hsent, ← hwrites]
                  rfl
              | succ complete =>
                  rw [bind_of_ok (hdata.trans (onConn_send_of_succ data (hout'.trans hout)
                    hcomplete))]
                  rw [hcomplete] at hlater
                  refine Served.cons ?_ hspells (hwrites ▸ hcomplete) ?_ ?_
                    (@ih ⟨_, { conn with
                      sent := conn.sent ++ data, writes := { conn.writes with complete } }⟩
                      (hout'.trans hout) hlater)
                  · rfl
                  · rw [← hwrites]
                  · rw [← hsent]

/-! ## A client from its start to its end -/

theorem served_handleConn {s : Session σ} {db : σ} (hout : s.conn.out = [])
    (hprepare : server.prepare s.db = .ok () db)
    (h : server.TranscriptSendable
      ((queries s.conn.unread).take s.conn.writes.complete) db) :
    (endState (server.handleConn s)).db =
        (server.transcript ((queries s.conn.unread).take s.conn.writes.complete) db).2 ∧
      ∃ written : List Bytes,
        List.Forall₂ Spells written ([.authenticationOk, ready] ::
          (server.transcript ((queries s.conn.unread).take s.conn.writes.complete) db).1) ∧
        (endState (server.handleConn s)).conn.sent = s.conn.sent ++
          delivered s.conn.writes.part s.conn.writes.complete written := by
  have hready : Spells (writeAuthenticationOk ++ writeReadyForQuery) [.authenticationOk, ready] :=
    (spells_one reads_writeAuthenticationOk).append spells_ready
  have hconn : server.handleConn s = EStateM.bind
      (onConn (send (writeAuthenticationOk ++ writeReadyForQuery))) (fun _ => server.serve)
      ⟨db, s.conn⟩ := by
    change EStateM.bind (onDb server.prepare) _ s = _
    unfold EStateM.bind onDb
    rw [hprepare]
    rfl
  rw [hconn]
  cases hcomplete : s.conn.writes.complete with
  | zero =>
      rw [bind_of_error (@onConn_send_of_zero _ ⟨db, s.conn⟩ _ hout hcomplete)]
      exact ⟨rfl, [_], .cons hready .nil, rfl⟩
  | succ complete =>
      rw [bind_of_ok (@onConn_send_of_succ _ ⟨db, s.conn⟩ _ _ hout hcomplete)]
      rw [hcomplete] at h
      obtain ⟨hdb, written, hspells, hsent⟩ := @served_serveFrom _ server
        (s.conn.unread.length + 1)
        ⟨db, { s.conn with
          sent := s.conn.sent ++ (writeAuthenticationOk ++ writeReadyForQuery)
          writes := { s.conn.writes with complete } }⟩ hout h
      refine ⟨hdb, _, .cons hready hspells, ?_⟩
      rw [delivered]
      exact hsent.trans (List.append_assoc _ _ _)

theorem handleConn_of_error {s : Session σ} {db : σ} {e : Bytes}
    (hprepare : server.prepare s.db = .error e db) :
    endState (server.handleConn s) = ⟨db, s.conn⟩ := by
  change endState (EStateM.bind (onDb server.prepare) _ s) = _
  unfold EStateM.bind onDb
  rw [hprepare]
  rfl

theorem handleClient_of_started {c conn : PGConn} {database : Bytes}
    (haccept : accept c = .ok database conn) (hout : conn.out = [])
    (h : server.ConversationSendable database
      ((queries conn.unread).take conn.writes.complete)) :
    (server.handleClient c).1 = (server.conversation database
        ((queries conn.unread).take conn.writes.complete)).2 ∧
      ∃ written : List Bytes,
        List.Forall₂ Spells written (server.conversation database
          ((queries conn.unread).take conn.writes.complete)).1 ∧
        (server.handleClient c).2.sent = conn.sent ++
          delivered conn.writes.part conn.writes.complete written := by
  unfold ConversationSendable at h
  simp only [handleClient, haccept, conversation]
  cases hconnect : server.connect database with
  | error err =>
      rw [hconnect] at h
      refine ⟨rfl, [writeErrorResult err], .cons (spells_one (reads_writeErrorResult h)) .nil, ?_⟩
      change (endState (send (writeErrorResult err) conn)).sent = _
      cases hcomplete : conn.writes.complete with
      | zero => rw [send_of_zero _ hout hcomplete, endState, delivered]
      | succ complete =>
          rw [send_of_succ _ hout hcomplete, endState, delivered, delivered_nil, List.append_nil]
  | ok db =>
      rw [hconnect] at h
      cases hprepare : server.prepare db with
      | error e db' =>
          have hend := @handleConn_of_error _ server ⟨db, conn⟩ _ _ hprepare
          simp only [hend, hprepare]
          exact ⟨trivial, [], .nil, by rw [delivered_nil, List.append_nil]⟩
      | ok _ db' =>
          obtain ⟨hdb, written, hspells, hsent⟩ :=
            @served_handleConn _ server ⟨db, conn⟩ _ hout hprepare (h db' hprepare)
          simp only [hprepare]
          refine ⟨?_, written, hspells, hsent⟩
          rw [hdb]

end Server

open Server

theorem spells_flatten {written : List Bytes} {replies : List (List Reply)}
    (h : List.Forall₂ Spells written replies) : Spells written.flatten replies.flatten := by
  induction h with
  | nil => exact spells_nil
  | cons hspells _ ih => exact hspells.append ih

/-- What a client was sent that asked for SSL before it was told these replies, with one write
for each of them.  It reads what was written completely; the write after that was cut off, and
nothing was sent later. -/
def IsTold (requests : Nat) (replies : List (List Reply)) (writes : Writes) (sent : Bytes) : Prop :=
  ∃ written : List Bytes, written.length = replies.length ∧
    (∀ n, readReplies (written.take n).flatten = .ok (replies.take n).flatten) ∧
    sent = delivered writes.part writes.complete (List.replicate requests unwilling ++ written)

theorem isTold_of_spells {requests : Nat} {replies : List (List Reply)} {writes : Writes}
    {sent : Bytes} {written : List Bytes} (h : List.Forall₂ Spells written replies)
    (hsent : sent = delivered writes.part writes.complete
      (List.replicate requests unwilling ++ written)) : IsTold requests replies writes sent :=
  ⟨written, h.length_eq,
    fun n => readReplies_of_spells (spells_flatten (List.forall₂_take n h)), hsent⟩

/-- A client whose connection takes all that is written reads all of the replies. -/
theorem IsTold.whole {requests : Nat} {replies : List (List Reply)} {writes : Writes}
    {sent : Bytes} (h : IsTold requests replies writes sent)
    (hwrites : requests + replies.length ≤ writes.complete) :
    ∃ data, sent = (List.replicate requests unwilling).flatten ++ data ∧
      readReplies data = .ok replies.flatten := by
  obtain ⟨written, hlength, hread, hsent⟩ := h
  have hall : (List.replicate requests unwilling ++ written).length ≤ writes.complete := by
    rwa [List.length_append, List.length_replicate, hlength]
  rw [delivered_of_length_le hall, List.flatten_append] at hsent
  have hdata := hread replies.length
  rw [← hlength, List.take_length, hlength, List.take_length] at hdata
  exact ⟨written.flatten, hsent, hdata⟩

/-- A client that started is told what its queries are answered with. -/
theorem handleClient_of_startup (server : Server σ) {input : Arriving UInt8} {writes : Writes}
    {requests : Nat} {database rest : Bytes}
    (hstartup : startup input.rest = (requests, some (database, rest)))
    (h : server.ConversationSendable database (asked writes.complete requests (queries rest))) :
    (server.handleClient ⟨input, [], [], writes⟩).1 =
        (server.reached writes.complete requests database (queries rest)).2 ∧
      IsTold requests (server.reached writes.complete requests database (queries rest)).1 writes
        (server.handleClient ⟨input, [], [], writes⟩).2.sent := by
  have hstarted := @started_accept ⟨input, [], [], writes⟩ rfl
  change Started _ _ (startup input.rest) at hstarted
  generalize haccept : accept ⟨input, [], [], writes⟩ = result at hstarted
  rw [hstartup] at hstarted
  cases hstarted with
  | error ended sent =>
      obtain hnone | hlost := ended
      · cases hnone
      · rw [reached, if_pos hlost]
        simp only [handleClient, haccept]
        refine ⟨trivial, isTold_of_spells .nil ?_⟩
        rw [sent, List.append_nil, List.nil_append]
  | @ok database requests conn out sent complete part =>
      change writes.complete = requests + conn.writes.complete at complete
      have hasked : asked writes.complete requests (queries conn.unread) =
          (queries conn.unread).take conn.writes.complete := by
        rw [asked, complete, Nat.add_sub_cancel_left]
      rw [hasked] at h
      obtain ⟨hdb, written, hspells, hsent⟩ := handleClient_of_started haccept out h
      rw [reached, if_neg (by omega), hasked]
      refine ⟨hdb, isTold_of_spells hspells ?_⟩
      have hadd := delivered_add writes.part conn.writes.complete
        (List.replicate requests unwilling) written
      rw [List.length_replicate] at hadd
      rw [hsent, sent, complete, hadd, part, List.nil_append]

/-- Whatever a client sends, in parts of any length, it is told the answers to what its bytes
ask while its connection takes them, and these queries are the only effect on the database. -/
theorem client_is_told (server : Server σ) (input : Arriving UInt8) (writes : Writes)
    (h : ∀ requests database rest, startup input.rest = (requests, some (database, rest)) →
      server.ConversationSendable database (asked writes.complete requests (queries rest))) :
    (server.handleClient ⟨input, [], [], writes⟩).1 =
        (server.told writes.complete input.rest).2 ∧
      IsTold (startup input.rest).1 (server.told writes.complete input.rest).1 writes
        (server.handleClient ⟨input, [], [], writes⟩).2.sent := by
  unfold told
  cases hstartup : startup input.rest with
  | mk requests started =>
      cases started with
      | some started =>
          obtain ⟨database, rest⟩ := started
          exact handleClient_of_startup server hstartup (h _ _ _ hstartup)
      | none =>
          have hstarted := @started_accept ⟨input, [], [], writes⟩ rfl
          change Started _ _ (startup input.rest) at hstarted
          generalize haccept : accept ⟨input, [], [], writes⟩ = result at hstarted
          rw [hstartup] at hstarted
          cases hstarted with
          | error _ sent =>
              simp only [handleClient, haccept]
              refine ⟨trivial, isTold_of_spells .nil ?_⟩
              rw [sent, List.append_nil, List.nil_append]

/-- A database that counts its statements, and has an error for those that are too long. -/
def countingServer : Server Nat where
  query text count :=
    (if text.length ≤ 16 then .ok ⟨[], [], ascii "UPDATE 1"⟩
      else .error ⟨ascii "too long", none⟩, count + 1)
  warnings _ := [⟨ascii "no data", none⟩]
  clearWarnings count := count
  rollbackAfterError count := count
  registerFunction _ _ count := (none, count)
  registerVirtualTable _ _ count := (none, count)
  runes text := text.map fun b => Char.ofNat b.toNat
  normalizeNfc text := text
  formats := ⟨fun _ _ => []⟩
  connect _ := .ok 0
  selectWithoutFrom := false

theorem countingServer_answerSendable (query : Bytes) (count : Nat) :
    countingServer.AnswerSendable query count := by
  have hresult : (⟨[], [], ascii "UPDATE 1"⟩ : Result).Sendable countingServer.formats :=
    ⟨by decide, by simp, by decide, by decide, by simp, by decide, by decide⟩
  have herror : (⟨ascii "too long", none⟩ : IError).Sendable := ⟨by decide, by decide⟩
  have hwarning : (⟨ascii "no data", none⟩ : IError).Sendable := ⟨by decide, by decide⟩
  intro _
  have hquery : ∀ text count, countingServer.query text count =
      (if text.length ≤ 16 then .ok ⟨[], [], ascii "UPDATE 1"⟩
        else .error ⟨ascii "too long", none⟩, count + 1) := fun _ _ => rfl
  rw [hquery]
  split
  · next heq =>
      split at heq
      · cases heq
        refine ⟨fun w hw => ?_, hresult⟩
        rwa [List.mem_singleton.mp hw]
      · cases heq
  · next heq =>
      split at heq
      · cases heq
      · cases heq
        exact herror

theorem countingServer_sendable (database : Bytes) (queries : List Bytes) :
    countingServer.ConversationSendable database queries := by
  have htranscript : ∀ count, countingServer.TranscriptSendable queries count := by
    induction queries with
    | nil => exact fun _ => trivial
    | cons query queries ih => exact fun count => ⟨countingServer_answerSendable query count, ih _⟩
  exact fun count _ => htranscript count

/-- A request for SSL, a start without parameters, two queries and a part of a third one. -/
def inParts : Arriving UInt8 :=
  ⟨[0, 0], [[0, 8, 4, 210, 22, 47, 0, 0, 0], [9, 0, 3, 0, 0, 0, byteOf 'Q', 0, 0, 0, 6, byteOf ';'],
    [0, byteOf 'Q', 0, 0, 0, 6, byteOf 'x', 0, byteOf 'Q', 0], [], [0]]⟩

set_option maxRecDepth 20000 in
theorem client_is_told_inParts :
    (countingServer.handleClient ⟨inParts, [], [], ⟨3, 5, []⟩⟩).1 = some 1 ∧
      (countingServer.told 3 inParts.rest).1.length = 3 ∧
      IsTold 1 (countingServer.told 3 inParts.rest).1 ⟨3, 5, []⟩
        (countingServer.handleClient ⟨inParts, [], [], ⟨3, 5, []⟩⟩).2.sent := by
  have htold := client_is_told countingServer inParts ⟨3, 5, []⟩
    fun requests database rest _ =>
      countingServer_sendable database (asked 3 requests (queries rest))
  have hcount : (countingServer.told 3 inParts.rest).2 = some 1 := by decide
  have hrequests : (startup inParts.rest).1 = 1 := by decide
  rw [hcount, hrequests] at htold
  exact ⟨htold.1, by decide, htold.2⟩

/-! ## A client of the protocol -/

def queryMessage (query : Bytes) : Bytes :=
  writeByte (byteOf 'Q') ++ writeInt32 (4 + (query.length + 1)) ++ writeString query

def terminateMessage : Bytes := writeByte (byteOf 'X') ++ writeInt32 4

def sslRequestMessage : Bytes := writeInt32 8 ++ writeInt32 80877103

def parameterBytes (parameters : List (Bytes × Bytes)) : Bytes :=
  parameters.flatMap fun (name, value) => writeString name ++ writeString value

structure Client where
  sslRequests : Nat
  protocol : Nat
  parameters : List (Bytes × Bytes)
  queries : List Bytes

namespace Client

variable (client : Client)

def startupMessage : Bytes :=
  writeInt32 (4 + 4 + (parameterBytes client.parameters).length + 1) ++
    writeInt32 client.protocol ++ parameterBytes client.parameters ++ writeByte 0

/-- What is sent before the client terminates the connection, or loses it. -/
def bytes : Bytes :=
  (List.replicate client.sslRequests sslRequestMessage).flatten ++ client.startupMessage ++
    client.queries.flatMap queryMessage

/-- The last one of the parameters with this name. -/
def database : Bytes :=
  client.parameters.foldl
    (fun database (name, value) => if name = ascii "database" then value else database) []

/-- Texts have no zero byte, and the lengths of messages are those of an `int`. -/
structure WellFormed : Prop where
  protocol : client.protocol < 2 ^ 31 ∧ (client.protocol : Int) ≠ sslRequest
  parameters : ∀ p ∈ client.parameters, 0 ∉ p.1 ∧ 0 ∉ p.2
  length : (parameterBytes client.parameters).length + 9 < 2 ^ 31
  queries : ∀ query ∈ client.queries, 0 ∉ query ∧ query.length + 5 < 2 ^ 31

end Client

theorem reads_parametersFrom {parameters : List (Bytes × Bytes)} {fuel msgLen n : Nat}
    {database : Bytes} (hfuel : parameters.length < fuel)
    (hlength : n + (parameterBytes parameters).length + 1 = msgLen) (hmsgLen : msgLen < 2 ^ 31)
    (h : ∀ p ∈ parameters, 0 ∉ p.1 ∧ 0 ∉ p.2) :
    Reads (parametersFrom fuel msgLen n database) (parameterBytes parameters)
      (parameters.foldl (fun database (name, value) =>
        if name = ascii "database" then value else database) database) := by
  have hend : int32 ((msgLen : Int) - 1) = (msgLen : Int) - 1 := int32_of_lt (by omega) (by omega)
  induction parameters generalizing fuel n database with
  | nil =>
      obtain ⟨fuel, rfl⟩ : ∃ k, fuel = k + 1 := ⟨fuel - 1, by omega⟩
      have hdone : ¬(n : Int) < (msgLen : Int) - 1 := by
        simp only [parameterBytes, List.flatMap_nil, List.length_nil] at hlength
        omega
      rw [parametersFrom, hend, if_neg hdone]
      exact reads_pure database
  | cons p parameters ih =>
      obtain ⟨name, value⟩ := p
      obtain ⟨hname, hvalue⟩ := h _ List.mem_cons_self
      rw [List.length_cons] at hfuel
      obtain ⟨fuel, rfl⟩ : ∃ k, fuel = k + 1 := ⟨fuel - 1, by omega⟩
      have hbytes : parameterBytes ((name, value) :: parameters) =
          writeString name ++ (writeString value ++ parameterBytes parameters) := by
        simp [parameterBytes]
      rw [hbytes] at hlength ⊢
      simp only [List.length_append, length_writeString] at hlength
      have hnext : int32 ((n : Int) + ((name.length + 1) + (value.length + 1))) =
          ((n + (name.length + 1) + (value.length + 1) : Nat) : Int) := by
        rw [int32_of_lt (by omega) (by omega)]
        omega
      rw [parametersFrom, hend, if_pos (by omega)]
      refine (reads_readString hname).bind ((reads_readString hvalue).bind ?_)
      rw [hnext]
      exact ih (by omega) (by omega) fun q hq => h q (List.mem_cons_of_mem _ hq)

theorem length_le_parameterBytes (parameters : List (Bytes × Bytes)) :
    parameters.length ≤ (parameterBytes parameters).length := by
  induction parameters with
  | nil => exact Nat.le_refl _
  | cons p parameters ih =>
      simp only [parameterBytes, List.flatMap_cons, List.length_append, List.length_cons,
        length_writeString] at ih ⊢
      omega

theorem reads_startupMessage {client : Client} (h : client.WellFormed) :
    Reads startupMessage client.startupMessage (some client.database) := by
  have hlength := h.length
  have hparameters :
      Reads (startupParameters ((4 + 4 + (parameterBytes client.parameters).length + 1 :
      Nat) : Int)) (parameterBytes client.parameters ++ writeByte 0) client.database := by
    intro rest
    have hcount := length_le_parameterBytes client.parameters
    have hread := @reads_parametersFrom client.parameters
      ((parameterBytes client.parameters ++ writeByte 0 ++ rest).length + 1)
      (4 + 4 + (parameterBytes client.parameters).length + 1) 8 []
      (by simp only [List.length_append]; omega) (by omega) (by omega) h.parameters
    have hterminator : Reads (do
        let terminator ← readU8
        if terminator ≠ 0 then throw invalidMessage else pure client.database : ByteReader Bytes)
        (writeByte 0) client.database :=
      (reads_readU8 0).bind_nil (reads_pure client.database)
    have hfirst := hread (writeByte 0 ++ rest)
    rw [← List.append_assoc, Nat.cast_ofNat] at hfirst
    rw [startupParameters, bind_apply]
    change (parametersFrom _ _ 8 [] _ >>= _) = _
    rw [hfirst]
    exact hterminator rest
  have hprotocol := reads_writeInt32 h.protocol.1
  rw [Client.startupMessage, List.append_assoc, List.append_assoc]
  refine (reads_writeInt32 (by omega)).bind (hprotocol.bind ?_)
  rw [if_neg h.protocol.2]
  exact hparameters.map some

theorem startup_of_reads {client : Client} (h : client.WellFormed) (requests : Nat) (rest : Bytes) :
    startup ((List.replicate requests sslRequestMessage).flatten ++
      (client.startupMessage ++ rest)) =
      (requests, some (client.database, rest)) := by
  induction requests with
  | zero => exact startupFrom_ok_some (reads_startupMessage h rest)
  | succ requests ih =>
      have hlength : Reads (readInt 4) (writeInt32 8) 8 := reads_writeInt32 (by decide)
      have hversion : Reads (readInt 4) (writeInt32 80877103) 80877103 :=
        reads_writeInt32 (by decide)
      have hssl : Reads startupMessage sslRequestMessage none := by
        refine hlength.bind (hversion.bind_nil ?_)
        rw [if_pos (show (80877103 : Int) = sslRequest from rfl)]
        exact reads_pure none
      rw [List.replicate_succ, List.flatten_cons, List.append_assoc]
      rw [startup_sslRequest (hssl _), ih]

theorem reads_queryMessage {query : Bytes} (hquery : 0 ∉ query)
    (hlength : query.length + 5 < 2 ^ 31) : Reads request (queryMessage query) (some query) := by
  rw [queryMessage, List.append_assoc]
  refine (reads_readU8 (byteOf 'Q')).bind ?_
  rw [if_pos rfl]
  exact (reads_writeInt32 (by omega)).bind ((reads_readString hquery).map some)

theorem queries_of_reads {asked : List Bytes} {tail : Bytes}
    (h : ∀ query ∈ asked, 0 ∉ query ∧ query.length + 5 < 2 ^ 31) (htail : queries tail = []) :
    queries (asked.flatMap queryMessage ++ tail) = asked := by
  induction asked with
  | nil => exact htail
  | cons query asked ih =>
      obtain ⟨hquery, hlength⟩ := h query List.mem_cons_self
      have hread := reads_queryMessage hquery hlength
      rw [List.flatMap_cons, List.append_assoc, queries_cons (hread _),
        ih fun q hq => h q (List.mem_cons_of_mem _ hq)]

theorem extends_readString : Extends readString := by
  intro input s rest more h
  have hzero : 0 ∈ input := by
    unfold readString at h
    split at h
    · next hcontains => exact List.contains_iff_mem.mp hcontains
    · cases h
  obtain ⟨text, later, rfl, htext⟩ := List.eq_append_cons_of_mem hzero
  have hread : ∀ rest, readString (text ++ 0 :: rest) = .ok (text, rest) := by
    intro rest
    simpa [writeString, writeByte] using reads_readString htext rest
  rw [hread] at h
  cases h
  rw [List.append_assoc, List.cons_append]
  exact hread _

theorem extends_request : Extends request := by
  have hU8 : Extends readU8 := ((extends_take Rows.pastEnd 1).bind fun _ => extends_pure _)
  have hInt : Extends (readInt 4) :=
    ((extends_take Rows.pastEnd 4).bind fun _ => extends_pure _).bind fun _ => extends_pure _
  refine hU8.bind fun msgType => ?_
  refine Extends.ite ?_ (Extends.ite (extends_pure none) (extends_throw _))
  exact hInt.bind fun _ => extends_readString.map some

/-- A query that is cut off by a lost connection is not asked. -/
theorem queries_of_cutOff {query cut rest : Bytes} (hquery : 0 ∉ query)
    (hlength : query.length + 5 < 2 ^ 31) (hcut : queryMessage query = cut ++ rest)
    (hrest : rest ≠ []) : queries cut = [] := by
  refine queries_end fun other later => ?_
  have hread := (reads_queryMessage hquery hlength).run
  rw [hcut] at hread
  exact extends_request.error_of_prefix hread hrest _ _

theorem queries_terminate (rest : Bytes) : queries (terminateMessage ++ rest) = [] := by
  refine queries_end fun query later hread => ?_
  have hterminate : Reads request (writeByte (byteOf 'X')) none := by
    refine (reads_readU8 (byteOf 'X')).bind_nil ?_
    rw [if_neg (by decide), if_pos rfl]
    exact reads_pure none
  rw [terminateMessage, List.append_assoc, hterminate] at hread
  cases hread

/-- What is sent after the last query: the termination, or a part of a query that is cut off
where the connection is lost. -/
inductive Ending : Bytes → Prop where
  | terminated (rest : Bytes) : Ending (terminateMessage ++ rest)
  | lost {query cut rest : Bytes} (text : 0 ∉ query ∧ query.length + 5 < 2 ^ 31)
      (message : queryMessage query = cut ++ rest) (isCut : rest ≠ []) : Ending cut

theorem Ending.queries_eq {tail : Bytes} (h : Ending tail) : queries tail = [] := by
  cases h with
  | terminated rest => exact queries_terminate rest
  | lost text message isCut => exact queries_of_cutOff text.1 text.2 message isCut

/-- A client that loses the connection, or terminates it, has its queries run once and in their
order on the database that it asked for, until an answer cannot be written, and it is told the
answers to them. -/
theorem wellFormed_client_is_told (server : Server σ) {client : Client}
    (hclient : client.WellFormed)
    {input : Arriving UInt8} {tail : Bytes} (writes : Writes)
    (hinput : input.rest = client.bytes ++ tail) (htail : Ending tail)
    (h : server.ConversationSendable client.database
      (asked writes.complete client.sslRequests client.queries)) :
    (server.handleClient ⟨input, [], [], writes⟩).1 =
        (server.reached writes.complete client.sslRequests client.database client.queries).2 ∧
      IsTold client.sslRequests
        (server.reached writes.complete client.sslRequests client.database client.queries).1 writes
        (server.handleClient ⟨input, [], [], writes⟩).2.sent := by
  have hstartup : startup input.rest = (client.sslRequests, some (client.database,
      client.queries.flatMap queryMessage ++ tail)) := by
    rw [hinput, Client.bytes, List.append_assoc, List.append_assoc]
    exact startup_of_reads hclient _ _
  have hasked := queries_of_reads hclient.queries htail.queries_eq
  rw [← hasked] at h
  have htold := handleClient_of_startup server hstartup h
  rwa [hasked] at htold

def countingClient : Client :=
  ⟨1, 196608, [(ascii "user", ascii "a"), (ascii "database", ascii "b")],
    [ascii ";", ascii "UPDATE t SET x = 1"]⟩

theorem countingClient_wellFormed : countingClient.WellFormed :=
  ⟨by decide, by decide, by decide, by decide⟩

set_option maxRecDepth 20000 in
theorem wellFormed_client_is_told_inParts :
    ∃ c : PGConn, c.unread = countingClient.bytes ++ terminateMessage ∧
      (countingServer.handleClient c).1 = some 1 ∧
      ∃ data, (countingServer.handleClient c).2.sent = unwilling ++ data ∧
        (readReplies data).map List.length = .ok 6 := by
  have htold := @wellFormed_client_is_told _ countingServer _ countingClient_wellFormed
    ⟨[0], [countingClient.bytes.drop 1, terminateMessage]⟩ terminateMessage ⟨4, 0, []⟩ (by decide)
    (.terminated []) (countingServer_sendable _ _)
  have hcount : (countingServer.reached 4 countingClient.sslRequests countingClient.database
      countingClient.queries).2 = some 1 := by decide
  have hreplies : (countingServer.reached 4 countingClient.sslRequests countingClient.database
      countingClient.queries).1.map List.length = [2, 2, 2] := by decide
  rw [hcount] at htold
  obtain ⟨data, hsent, hread⟩ := htold.2.whole (by decide)
  refine ⟨⟨⟨[0], [countingClient.bytes.drop 1, terminateMessage]⟩, [], [], ⟨4, 0, []⟩⟩, by decide,
    htold.1, data, hsent, ?_⟩
  rw [hread, Except.map, List.length_flatten, hreplies]
  rfl

end Vsql.Pg
