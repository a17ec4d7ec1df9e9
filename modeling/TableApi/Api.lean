import TableApi.Request.Params
import TableApi.Resource.Write

/-!
# The API

The API answers four requests about a resource: list its rows, read one, create
one, delete one. A request is turned into statements, a database runs them, and
the rows that come back are unpacked. Whatever is wrong with the request
itself is found before the database is asked; creating and deleting change the
database by one transaction or not at all.

Database and identifiers belong to a world outside, of which only a state is
known here. Every operation says how it changes that state, also when it fails.
-/

namespace TableApi

/-- What the API needs from outside. -/
structure World (σ : Type) where
  /-- Runs a query. -/
  query : Statement → StateM σ (Except DatabaseFault (List Row))
  /-- Runs statements in one transaction and counts the rows they touched. -/
  executeAll : List Statement → StateM σ (Except DatabaseFault Nat)
  /-- Whether the database answers at all. -/
  isValid : StateM σ Bool
  /-- A fresh identifier. -/
  draw : IdGenerator → StateM σ Json

/-- The resources that are served, and how many rows make a page; 0 turns pages
off. -/
structure Api where
  resources : List Resource
  pageLimit : Nat := 0
  deriving Inhabited

structure Reply where
  status : Nat
  data : Json
  deriving Repr, DecidableEq

/-- An operation on the world that may fail. -/
abbrev Action (σ : Type) : Type → Type := ExceptT Fault (StateM σ)

namespace World

variable {σ : Type} (world : World σ)

def rows (query : Statement) : Action σ (List Row) := do
  match ← ExceptT.lift (world.query query) with
  | .ok rows => pure rows
  | .error fault => throw (.database fault)

def run (statements : List Statement) : Action σ Unit := do
  match ← ExceptT.lift (world.executeAll statements) with
  | .ok _ => pure ()
  | .error fault => throw (.database fault)

end World

namespace Api

/-- The resource of a name: by its own name, or else the first that answers to
it. -/
def resource (api : Api) (name : String) : Except Fault Resource :=
  match api.resources.find? fun resource => resource.name == name with
  | some resource => .ok resource
  | none => match api.resources.find? fun resource => resource.answersTo name with
    | some resource => .ok resource
    | none => .error (.notFound (.model name))

/-- The number of a page that came back without rows, unless it is the first:
then it is beyond the last. -/
def beyondLast (page : Option Page) (rows : List Row) : Option Nat :=
  (page.map Page.number).filter fun number => 1 < number && rows.isEmpty

section Actions

variable {σ : Type} (world : World σ)

/-- Lists the rows that the parameters ask for. -/
def list (api : Api) (name : String) (params : Params) : Action σ Reply := do
  let resource ← api.resource name
  let selection ← resource.readList params api.pageLimit
  let rows ← world.rows (resource.query selection)
  match beyondLast selection.page rows with
  | some number => throw (.notFound (.page number name))
  | none =>
    let payloads ← (rows.mapM resource.unpack : Except Fault (List (Entries Json)))
    pure ⟨200, .arr (payloads.map .obj)⟩

/-- The payload of the row of an identifier; there must be exactly one. -/
def fetch (resource : Resource) (id : String) : Action σ (Entries Json) := do
  let selection ← resource.readSingle id
  match ← world.rows (resource.query selection) with
  | [] => throw (.notFound (.row resource.name id))
  | [row] => resource.unpack row
  | rows => throw (.integrity (.sharedId rows.length resource.name id))

def read (api : Api) (name id : String) : Action σ Reply := do
  let resource ← api.resource name
  let payload ← fetch world resource id
  pure ⟨200, .obj payload⟩

/-- Inserts the row of a payload and the rows it brings along, in one
transaction, and answers with all of their values. -/
def create (api : Api) (name : String) (payload : Entries Json) : Action σ Reply := do
  let resource ← api.resource name
  let pack ← resource.newPack world.draw payload
  let inserts ← resource.inserts pack
  -- Whatever the payload is at fault for has been found by now.
  world.run (inserts.map Insertion.statement)
  let created ← resource.payloadOf pack
  pure ⟨201, .obj created⟩

/-- Deletes the row of an identifier and the rows it refers to, in one
transaction, and answers with what was there. -/
def delete (api : Api) (name id : String) : Action σ Reply := do
  let resource ← api.resource name
  let payload ← fetch world resource id
  let pack ← resource.packOf payload
  let deletes ← resource.deletes pack
  -- All of it is known to be deletable before any of it is deleted.
  world.run (deletes.map Deletion.statement)
  pure ⟨200, .obj payload⟩

end Actions

end Api

end TableApi
