import Vsql.Foundation.Runs
import Vsql.Statement

/-!
# Sessions on one file

Any number of connections use one database file.  A statement runs while it
holds the lock of the file, so that statements follow one another, in any order.
A connection that is closed, or whose process dies, is gone: what happens in the
middle of a statement is decided by whether its commit frame is in the log, so
dying is an event before or after a statement.

The transactions that have ended are recorded: they are the history of a run,
which the program does not keep.
-/

namespace Vsql

open Foundation

structure Sessions (size : PageSize) (Def : Type) where
  file : CommittedState size
  connections : List (Option (Storage size Def))
  committed : List Nat
  rolledBack : List Nat

inductive SessionEvent (Def : Type) where
  | connect
  | close (connection : Nat)
  | execute (connection : Nat) (stmt : Statement Def) (faults : Faults)

namespace Sessions

variable {size : PageSize} {Def : Type}

/-- A new database file, before the first connection. -/
def init : Sessions size Def := ⟨⟨.new size, []⟩, [], [], []⟩

/-- No other connection holds the session lock. -/
def alone (S : Sessions size Def) (connection : Nat) : Bool :=
  (S.connections.eraseIdx connection).all (·.isNone)

/-- The implicit transactions of a statement: their ids have been used, and are
no longer active. -/
def implicitIds (before after : Header) : List Nat :=
  (List.range' (before.transactionId + 1)
    (after.transactionId - before.transactionId)).filter fun tid =>
      tid ∉ after.activeTransactionIds.tids

def committedBy (stmt : Statement Def) (s t : Storage size Def) : List Nat :=
  implicitIds s.committed.header t.committed.header ++
    match stmt with
    | .commit _ => [s.transactionId]
    | _ => []

def rolledBackBy (stmt : Statement Def) (s : Storage size Def) : List Nat :=
  match stmt with
  | .rollback => [s.transactionId]
  | _ => []

def run (parser : SchemaParser Def) (S : Sessions size Def) (connection : Nat)
    (stmt : Statement Def) (faults : Faults) (s : Storage size Def) :
    Sessions size Def :=
  match s.execute parser (S.alone connection) faults stmt with
  | (t, some _) =>
      { S with
        file := t.committed
        connections := S.connections.set connection (some t) }
  | (t, none) =>
      { file := t.committed
        connections := S.connections.set connection (some t)
        committed := committedBy stmt s t ++ S.committed
        rolledBack := rolledBackBy stmt s ++ S.rolledBack }

def step (parser : SchemaParser Def) (S : Sessions size Def) :
    SessionEvent Def → Sessions size Def
  | .connect => { S with connections := S.connections ++ [some (.new .file)] }
  | .close connection => { S with connections := S.connections.set connection none }
  | .execute connection stmt faults =>
      match S.connections[connection]? with
      | some (some s) =>
          S.run parser connection stmt faults { s with committed := S.file }
      | _ => S

def Step (parser : SchemaParser Def) (S : Sessions size Def) (e : SessionEvent Def)
    (S' : Sessions size Def) : Prop :=
  S.step parser e = S'

end Sessions
end Vsql
