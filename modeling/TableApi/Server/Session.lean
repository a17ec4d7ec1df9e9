import TableApi.Catalog
import TableApi.Config.Settings
import TableApi.Server.Transaction

/-!
# Sessions with a database server

A session is opened from the connection settings and stays usable until it is
closed. It asks the server for its catalog, runs queries and runs transactions.
After closing, every request fails without anything being sent.
-/

namespace TableApi

structure Session where
  /-- The databases to expose; none means all but the server's own. -/
  databases : List String := []
  closed : Bool := false
  deriving Repr, DecidableEq

namespace Session

variable {σ : Type} (wire : Wire σ)

/-- Opens a session with the provider that the settings name. -/
def connect (settings : Connection) : StateM σ (Except Fault Session) :=
  if settings.provider ≠ "mysql" then
    pure (.error (.config (.unknownProvider settings.provider)))
  else match settings.host, settings.username with
    | none, _ => pure (.error (.config (.missingOption "host")))
    | some _, none => pure (.error (.config (.missingOption "username")))
    | some host, some username => do
      match ← wire.signOn host settings.effectivePort username settings.password with
      | .error fault => pure (.error (.database fault))
      | .ok () => pure (.ok { databases := settings.databases })

/-- What a request to a closed session fails with. -/
def closedFault : DatabaseFault :=
  ⟨"attempted to acquire a connection on a closed pool"⟩

/-- Sends a command, unless the session is closed. -/
def send (session : Session) (command : Command) : StateM σ (Except DatabaseFault Outcome) :=
  if session.closed then pure (.error closedFault) else wire.send command

def close (session : Session) : Session :=
  { session with closed := true }

def isValid (session : Session) : StateM σ Bool := do
  match ← session.send wire { sql := "SELECT 1" } with
  | .ok _ => pure true
  | .error _ => pure false

def query (session : Session) (statement : Statement) :
    StateM σ (Except DatabaseFault (List (List Json))) := do
  match ← session.send wire (.ofStatement statement) with
  | .ok outcome => pure (.ok outcome.values)
  | .error fault => pure (.error fault)

def executeAll (session : Session) (statements : List Statement) :
    StateM σ (Except DatabaseFault Nat) :=
  Transaction.run (session.send wire) statements

end Session

end TableApi
