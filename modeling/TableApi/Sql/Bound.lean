import TableApi.Json
import TableApi.Number.Integer

/-!
# Bound parameters

Each value of a statement is sent with a type of its own. An integer goes as a
signed one where it fits and as an unsigned one where only that holds it; lists
and objects go as JSON documents.
-/

namespace TableApi.Sql

/-- A parameter as it is sent to the database. -/
inductive Bound where
  | null
  | bool (b : Bool)
  | signed (n : Int)
  | unsigned (n : Int)
  | float (bits : UInt64)
  | text (s : String)
  | json (document : Json)
  deriving Repr, DecidableEq, Inhabited

def Bound.ofJson : Json → Bound
  | .null => null
  | .bool b => bool b
  | .int n => if n < Number.signedBound then signed n else unsigned n
  | .float bits => float bits
  | .str s => text s
  | .arr items => json (.arr items)
  | .obj members => json (.obj members)

end TableApi.Sql
