import TableApi.Entries
import TableApi.Schema.Policy

/-!
# Settings

The settings of a server: which database to connect to, how to answer, and what
to say about the subjects of its schema. Host and user may be left open here, so
that checking can name the one that is missing.
-/

namespace TableApi

structure Connection where
  provider : String
  host : Option String := none
  port : Option Nat := none
  username : Option String := none
  password : String := ""
  /-- The databases to expose; none means all but the server's own. -/
  databases : List String := []
  deriving Repr, DecidableEq, Inhabited

/-- The port of a connection that names none. -/
def Connection.defaultPort : Nat := 3306

def Connection.effectivePort (connection : Connection) : Nat :=
  connection.port.getD defaultPort

/-- Everything a server is told when it starts. -/
structure Settings where
  connection : Connection
  /-- Rows on a page; 0 turns pages off. -/
  pageLimit : Nat := 0
  policies : List AccessPolicy := []
  /-- Aliases by the path of a table or column, in ascending order of paths. -/
  aliases : Entries (List String) := []
  /-- The address to listen on. -/
  bind : String := "0.0.0.0:3000"
  maxBodyBytes : Nat := 65536
  deriving Repr, DecidableEq, Inhabited

end TableApi
