import TableApi.Config.Settings
import TableApi.Json.Document

/-!
# Settings in a JSON document

A record is written as an object or, with its fields in order, as a list. In an
object unknown keys are skipped and may hold anything that is well formed, but a
known key may stand only once; in a list, fields may be left off at the end. A
field that is absent takes its default, if it has one.
-/

namespace TableApi.Settings

open Json (Document)

/-- The members of an object under keys that are texts. -/
def textMembers? : List (Option String × Document) → Option (Entries Document)
  | [] => some []
  | (key, value) :: rest => do
    let key ← key
    let others ← textMembers? rest
    some ((key, value) :: others)

/-- Whether no key stands twice. -/
def keysOnce (members : Entries Document) : Bool :=
  decide members.keys.Nodup

/-- The fields of a record among the known ones. -/
def fields? (known : List String) : Document → Option (Entries Document)
  | .object members => do
    let members ← textMembers? members
    let found := members.filter fun member => known.contains member.1
    if keysOnce found then some found else none
  | .list items => if items.length ≤ known.length then some (known.zip items) else none
  | _ => none

def field? {α : Type} (fields : Entries Document) (name : String)
    (read : Document → Option α) : Option α :=
  (fields.get? name).bind read

def fieldOr? {α : Type} (fields : Entries Document) (name : String) (absent : α)
    (read : Document → Option α) : Option α :=
  match fields.get? name with
  | none => some absent
  | some value => read value

def text? : Document → Option String
  | .text value => value
  | _ => none

def bool? : Document → Option Bool
  | .bool b => some b
  | _ => none

/-- An integer from 0 up to, and without, `bound`. -/
def naturalBelow? (bound : Nat) : Document → Option Nat
  | .number (some (.int n)) => if 0 ≤ n ∧ n < bound then some n.toNat else none
  | _ => none

def nullable? {α : Type} (read : Document → Option α) : Document → Option (Option α)
  | .null => some none
  | value => (read value).map some

def list? {α : Type} (read : Document → Option α) : Document → Option (List α)
  | .list items => items.mapM read
  | _ => none

def keySet? (document : Document) : Option KeySet := do
  let fields ← fields? ["create", "read", "update", "delete", "rename"] document
  let key (name : String) := fieldOr? fields name none (nullable? text?)
  some { create := ← key "create", read := ← key "read", update := ← key "update",
         delete := ← key "delete", rename := ← key "rename" }

def policy? (document : Document) : Option AccessPolicy := do
  let fields ← fields? ["subject", "excluded", "hidden", "protected", "keys"] document
  let flag (name : String) := fieldOr? fields name false bool?
  some { subject := ← field? fields "subject" text?
         excluded := ← flag "excluded"
         hidden := ← flag "hidden"
         locked := ← flag "protected"
         keys := ← fieldOr? fields "keys" {} keySet? }

def connection? (document : Document) : Option Connection := do
  let fields ← fields?
    ["provider", "host", "port", "username", "password", "databases"] document
  some { provider := ← field? fields "provider" text?
         host := ← fieldOr? fields "host" none (nullable? text?)
         port := ← fieldOr? fields "port" none (nullable? (naturalBelow? UInt16.size))
         username := ← fieldOr? fields "username" none (nullable? text?)
         password := ← fieldOr? fields "password" "" text?
         databases := ← fieldOr? fields "databases" [] (list? text?) }

/-- Aliases by path. Of two entries for one path the later counts. -/
def aliases? : Document → Option (Entries (List String))
  | .object members => do
    let members ← textMembers? members
    let pairs ← members.mapM fun member => do
      let names ← list? text? member.2
      some (member.1, names)
    some (Entries.sorted pairs)
  | _ => none

def ofDocument? (document : Document) : Option Settings := do
  let fields ← fields?
    ["connection", "page_limit", "policies", "aliases", "bind", "max_body_bytes"] document
  let connection ← field? fields "connection" connection?
  let plain : Settings := { connection }
  some { connection
         pageLimit := ← fieldOr? fields "page_limit" plain.pageLimit (naturalBelow? UInt32.size)
         policies := ← fieldOr? fields "policies" [] (list? policy?)
         aliases := ← fieldOr? fields "aliases" [] aliases?
         bind := ← fieldOr? fields "bind" plain.bind text?
         maxBodyBytes :=
           ← fieldOr? fields "max_body_bytes" plain.maxBodyBytes (naturalBelow? UInt64.size) }

end TableApi.Settings
