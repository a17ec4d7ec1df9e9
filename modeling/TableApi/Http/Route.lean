import TableApi.Http.Message

/-!
# Routes

A path leads to one of a fixed set of places, or nowhere. Paths are compared
segment by segment as they were sent: slashes count, case counts, and the last
segment must not be empty. The name in front of an identifier may be, for a
resource can have an empty name beside its own. `schema` under the API's path is
a place of its own and never the name of a resource.
-/

namespace TableApi.Http

/-- Where a path leads. Names and identifiers are still escaped. -/
inductive Route where
  | health
  | ready
  | version
  | models
  | model (name : String)
  | rows (name : String)
  | row (name id : String)
  deriving Repr, DecidableEq

inductive Method where
  | get | post | delete
  deriving Repr, DecidableEq

/-- The method of a word; asking for the head of an answer is asking for the
answer. -/
def Method.ofWord? (word : String) : Option Method :=
  if word = "GET" ∨ word = "HEAD" then some get
  else if word = "POST" then some post
  else if word = "DELETE" then some delete
  else none

namespace Route

/-- Where segments below the API's path lead. -/
def below? : List String → Option Route
  | ["schema"] => some models
  | [name] => if name.isEmpty then none else some (rows name)
  | [name, second] =>
    if second.isEmpty then none
    else if name = "schema" then some (model second)
    else some (row name second)
  | _ => none

def ofPath? (path : String) : Option Route :=
  match Text.split '/' path with
  | ["", "health"] => some health
  | ["", "ready"] => some ready
  | ["", "version"] => some version
  | "" :: "api" :: "v1" :: rest => below? rest
  | _ => none

def answers : Route → Method → Bool
  | rows _, .post | row _ _, .delete => true
  | _, .get => true
  | _, _ => false

end Route

end TableApi.Http
