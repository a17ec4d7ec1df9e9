import TableApi.Http.MediaType
import TableApi.Json.Printer
import TableApi.Number.Integer
import TableApi.Text.Percent

/-!
# Requests and responses

A request names a target: a path and, behind a question mark, a query string,
perhaps with a scheme and an authority in front. A path segment between slashes
may hold escapes, which are undone only after the path is cut. Headers are looked
up without regard to case.
-/

namespace TableApi.Http

structure Request where
  method : String
  /-- The target as it was sent. -/
  target : String
  headers : List (String × String) := []
  body : String := ""

/-- A response; its body, where it has one of interest, is a JSON value. -/
structure Response where
  status : Nat
  body : Option Json := none

def Response.text? (response : Response) : Option String :=
  response.body.map Json.print

def isSchemeChar (c : Char) : Bool :=
  c.isAlphanum || c ∈ ['+', '-', '.']

/-- What stands behind a scheme, a colon, two slashes and an authority. The
authority ends at the next slash or question mark. -/
def afterAuthority? (target : List Char) : Option (List Char) :=
  match target.dropWhile isSchemeChar with
  | ':' :: '/' :: '/' :: rest => some (rest.dropWhile fun c => c ≠ '/' && c ≠ '?')
  | _ => none

/-- A target that begins with its path has no authority. -/
theorem afterAuthority?_slash (rest : List Char) : afterAuthority? ('/' :: rest) = none := by
  simp [afterAuthority?, isSchemeChar]

namespace Request

/-- The path and the query string: the target without what stands behind a number
sign and without scheme and authority. Behind an authority the path is never
empty. -/
def address (request : Request) : String :=
  let target := match Text.cutFirst '#' request.target with
    | some (front, _) => front
    | none => request.target
  match afterAuthority? target.toList with
  | some ('/' :: rest) => String.ofList ('/' :: rest)
  | some rest => String.ofList ('/' :: rest)
  | none => target

def path (request : Request) : String :=
  match Text.cutFirst '?' request.address with
  | some (path, _) => path
  | none => request.address

/-- The query string; empty if there is none. -/
def query (request : Request) : String :=
  match Text.cutFirst '?' request.address with
  | some (_, query) => query
  | none => ""

/-- The first header of a name, if its value is plain text. -/
def header? (request : Request) (name : String) : Option String :=
  let found := request.headers.find? fun header => Text.lower header.1 == name
  (found.map (·.2)).filter fun value =>
    value.toList.all fun c => c == '\t' || (0x20 ≤ c.toNat && c.toNat < 0x7F)

/-- The length that the request declares for its body. -/
def declaredLength? (request : Request) : Option Nat :=
  (request.header? "content-length").bind (Number.naturalBelow? UInt64.size)

end Request

end TableApi.Http
