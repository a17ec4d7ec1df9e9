import TableApi.Api
import TableApi.Http.Route
import TableApi.Json.Text

/-!
# The API over HTTP

`respond` answers one request. First the declared length of the body is compared
with the limit, then the path and the method are looked up, then the segments of
the path and the body are read. Failures up to here have a status and no JSON.
After that an answer is a JSON object: `data`, with a count beside it for a list,
or `error` with a code, a message and, for a missing field, its name.
-/

namespace TableApi.Http

def faultBody (fault : Fault) : Json :=
  let details : List (String × Json) := match fault with
    | .missingField name => [("details", .obj [("field", .str name)])]
    | _ => []
  .obj [("error", .obj ([("code", .str fault.code), ("message", .str fault.message)] ++ details))]

/-- The response to a request that fails. -/
def faultResponse (fault : Fault) : Response :=
  ⟨fault.status, some (faultBody fault)⟩

def listBody (items : List Json) : Json :=
  .obj [("data", .arr items), ("meta", .obj [("count", .int items.length)])]

/-- The response to a request that succeeds: a list goes with its count. -/
def replyResponse (reply : Reply) : Response :=
  match reply.data with
  | .arr items => ⟨reply.status, some (listBody items)⟩
  | data => ⟨reply.status, some (.obj [("data", data)])⟩

def versionBody : Json :=
  .obj [("name", .str "tablerest"), ("version", .str "0.1.0")]

/-- The names of all resources with their root tables. -/
def modelsBody (api : Api) : Json :=
  listBody (api.resources.map fun resource =>
    .obj [("name", .str resource.name), ("table", .str resource.root.table.qualifiedName)])

/-- A resource's columns with their types, and what a new row needs. -/
def modelBody (resource : Resource) : Json :=
  .obj [("data", .obj [("name", .str resource.name), ("fields", .obj resource.types),
    ("required", .arr (resource.required.map fun names => .arr (names.map .str)))])]

/-- How many bytes of a body are ever read, whatever the limit. -/
def bufferLimit : Nat := 2097152

/-- Whether a body is longer than what may be read of it: the limit, or the length
that the request declares if that is less. -/
def tooLong (request : Request) (limit : Nat) : Bool :=
  let limit := min limit bufferLimit
  let limit := match request.declaredLength? with
    | some declared => min limit declared
    | none => limit
  limit < request.body.utf8ByteSize

section Answers

variable {σ : Type} (world : World σ)

/-- The response that an operation ends in. -/
def perform (action : Action σ Reply) : StateM σ Response := do
  match ← action.run with
  | .ok reply => pure (replyResponse reply)
  | .error fault => pure (faultResponse fault)

/-- Answers the question whether the database is there. -/
def ready : StateM σ Response := do
  if ← world.isValid then
    pure ⟨200, some (.obj [("status", .str "ok"), ("database", .str "ok")])⟩
  else
    pure ⟨503, some (.obj [("status", .str "degraded"), ("database", .str "unavailable")])⟩

def describe (api : Api) (name : String) : Response :=
  match api.resource name with
  | .ok resource => ⟨200, some (modelBody resource)⟩
  | .error fault => faultResponse fault

/-- Creates a row from the body of a request. -/
def create (api : Api) (limit : Nat) (name : String) (request : Request) :
    StateM σ Response :=
  if !((request.header? "content-type").any isJsonType) then pure ⟨415, none⟩
  else if tooLong request limit then pure ⟨413, none⟩
  else match Json.ofFront request.body with
    | .error .malformed => pure ⟨400, none⟩
    | .error .unfit => pure ⟨422, none⟩
    | .ok (.obj payload) => perform (api.create world name payload)
    | .ok _ => pure (faultResponse (.badRequest .bodyNotObject))

/-- Reads the row of an identifier; parameters beside it are refused. -/
def readRow (api : Api) (name id : String) (request : Request) : StateM σ Response :=
  if request.query.isEmpty then perform (api.read world name id)
  else pure (faultResponse (.badRequest .singleReadParameters))

/-- What a place answers to a method that it knows. -/
def answer (api : Api) (limit : Nat) (request : Request) (method : Method) :
    Route → StateM σ Response
  | .health => pure ⟨200, some (.obj [("status", .str "ok")])⟩
  | .ready => ready world
  | .version => pure ⟨200, some versionBody⟩
  | .models => pure ⟨200, some (modelsBody api)⟩
  | .model name => match Text.Percent.segment? name with
    | some name => pure (describe api name)
    | none => pure ⟨400, none⟩
  | .rows name => match Text.Percent.segment? name with
    | some name =>
      if method = .post then create world api limit name request
      else perform (api.list world name (Text.Percent.form request.query))
    | none => pure ⟨400, none⟩
  | .row name id => match Text.Percent.segment? name, Text.Percent.segment? id with
    | some name, some id =>
      if method = .delete then perform (api.delete world name id)
      else readRow world api name id request
    | _, _ => pure ⟨400, none⟩

/-- Answers a request; bodies of more than `limit` bytes are refused. An answer
to `HEAD` has no body. -/
def respond (api : Api) (limit : Nat) (request : Request) : StateM σ Response :=
  if request.declaredLength?.any (limit < ·) then pure ⟨413, none⟩
  else match Route.ofPath? request.path with
    | none => pure ⟨404, none⟩
    | some route => match (Method.ofWord? request.method).filter route.answers with
      | none => pure ⟨405, none⟩
      | some method => do
        -- The answer is worked out in full, with all its queries, and then cut.
        let response ← answer world api limit request method route
        pure (if request.method = "HEAD" then { response with body := none } else response)

end Answers

end TableApi.Http
