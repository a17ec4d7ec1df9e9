import TableApi.Resource.Row

/-!
# Packs

Clients speak in payloads: objects keyed by display names, nested along
relations. Statements are made from packs: the same values keyed by qualified
column names, with the row of a joined table under the branch key of the column
that leads to it. A column with a branch may also hold a plain value; it then
links to a row that is already there, and there is no branch.

`newPack` makes the pack of a new row and generates the identifiers a client
leaves out; `packOf` and `payloadOf` only rename keys; `rowOf` lays a pack out as
a row.
-/

namespace TableApi

/-- A step of packing: it may draw identifiers, which changes the state of their
source even when the step fails. -/
abbrev Packing (σ : Type) : Type → Type := ExceptT Fault (StateM σ)

/-- The value that a payload gives for a name: under the primary name, or else
under the first alias that has one. -/
def Name.valueIn? (name : Name) (payload : Entries Json) : Option Json :=
  match payload.get? name.primary with
  | some value => some value
  | none => name.aliases.findSome? payload.get?

/-- Refuses a payload with a key that names no column of the table; the first
such key is reported. -/
def Shape.checkKeys (shape : Shape) (payload : Entries Json) : Except Fault Unit :=
  match payload.keys.find? fun key => (shape.byDisplay? key).isNone with
  | some key => .error (.badRequest (.unknownField key))
  | none => .ok ()

/-- What a payload says for a column with a branch. -/
inductive Given where
  /-- A plain value: the row is there already. -/
  | link (value : Json)
  /-- The payload of a new row, empty when nothing is said. -/
  | row (payload : Entries Json)
  deriving DecidableEq

/-- What a payload says for a column with a branch. -/
def Column.givenIn (column : Column) (payload : Entries Json) : Given :=
  match column.displayName.valueIn? payload with
  | some (.obj nested) => .row nested
  | some value => .link value
  | none => .row []

section New

variable {σ : Type} (draw : IdGenerator → StateM σ Json)

/-- The value of a column without a branch in a new row. Only a primary key may
be left out. -/
def Column.newValue (column : Column) (ids : IdGenerator) (payload : Entries Json) :
    Packing σ Json :=
  match column.displayName.valueIn? payload with
  | some value => pure value
  | none =>
    if column.isPrimary then ExceptT.lift (draw ids)
    else throw (.missingField column.displayName.primary)

/-- The payload of a new row below `column`, with an identifier in the referenced
column if none is given. -/
def Column.withTarget (column : Column) (placed : Placed) (inner : Shape)
    (payload : Entries Json) : Packing σ (Entries Json) :=
  match column.relation.bind fun target => inner.column? target.column with
  | none => pure payload
  | some target =>
    if (target.displayName.valueIn? payload).isSome then pure payload
    else do
      let id ← ExceptT.lift (draw placed.table.ids)
      pure (payload.put target.displayName.primary id)

/-- The pack of a new row of a table whose identifiers come from `ids`, column by
column. -/
def Shape.newPack (ids : IdGenerator) (payload : Entries Json) :
    Shape → Packing σ (Entries Json)
  | nil => pure []
  | leaf column rest => do
    let value ← column.newValue draw ids payload
    let others ← rest.newPack ids payload
    pure ((column.qualifiedName, value) :: others)
  | branch column placed inner rest => match column.givenIn payload with
    | .link value => do
      let others ← rest.newPack ids payload
      pure ((column.qualifiedName, value) :: others)
    | .row nested => do
      let nested ← column.withTarget draw placed inner nested
      inner.checkKeys nested
      let below ← inner.newPack placed.table.ids nested
      let others ← rest.newPack ids payload
      pure ((column.branchKey, .obj below) :: others)

/-- The pack of a new row of the root table and of the rows it brings along. -/
def Resource.newPack (resource : Resource) (payload : Entries Json) :
    Packing σ (Entries Json) := do
  resource.shape.checkKeys payload
  resource.shape.newPack draw resource.root.table.ids payload

end New

def Column.branchObject (column : Column) : Json → Except Fault (Entries Json)
  | .obj members => .ok members
  | _ => .error (.contract (.branchNotObject column.qualifiedName))

/-- Renames the keys of a payload, column by column, and checks the keys of the
objects below. -/
def Shape.packOf (payload : Entries Json) : Shape → Except Fault (Entries Json)
  | nil => .ok []
  | leaf column rest => do
    let others ← rest.packOf payload
    match column.displayName.valueIn? payload with
    | none => .ok others
    | some value => .ok ((column.qualifiedName, value) :: others)
  | branch column _ inner rest => match column.displayName.valueIn? payload with
    | none => rest.packOf payload
    | some (.obj nested) => do
      inner.checkKeys nested
      let below ← inner.packOf nested
      let others ← rest.packOf payload
      .ok ((column.branchKey, .obj below) :: others)
    | some value => do
      let others ← rest.packOf payload
      .ok ((column.qualifiedName, value) :: others)

/-- Renames a payload's keys to qualified names. Values stay, columns that are
left out stay out. -/
def Resource.packOf (resource : Resource) (payload : Entries Json) :
    Except Fault (Entries Json) := do
  resource.shape.checkKeys payload
  resource.shape.packOf payload

/-- The entries of a pack under display names. An object below must hold nothing
else than entries of its table. -/
def Shape.payloadPairs (pack : Entries Json) : Shape → Except Fault (List (String × Json))
  | nil => .ok []
  | leaf column rest => do
    let others ← rest.payloadPairs pack
    match pack.get? column.qualifiedName with
    | none => .ok others
    | some value => .ok ((column.displayName.primary, value) :: others)
  | branch column _ inner rest => do
    let name := column.displayName.primary
    let own := (pack.get? column.qualifiedName).toList.map fun value => (name, value)
    match pack.get? column.branchKey with
    | none =>
      let others ← rest.payloadPairs pack
      .ok (own ++ others)
    | some value =>
      let nested ← column.branchObject value
      let below ← inner.payloadPairs nested
      -- An entry that no column took shows in the count.
      if below.length ≠ nested.length then .error (.contract .strayKeys)
      else
        let others ← rest.payloadPairs pack
        .ok (own ++ (name, .obj (Entries.ofList below)) :: others)

/-- Renames a pack's keys back to primary display names. -/
def Resource.payloadOf (resource : Resource) (pack : Entries Json) :
    Except Fault (Entries Json) := do
  let pairs ← resource.shape.payloadPairs pack
  if pairs.length ≠ pack.length then .error (.contract .strayKeys)
  else .ok (Entries.ofList pairs)

/-- The cells of a pack in the order of a depth-first walk. -/
def Shape.rowOf (pack : Entries Json) : Shape → Except Fault Row
  | nil => .ok []
  | leaf column rest => match pack.get? column.qualifiedName with
    | none => .error (.contract (.missingValue column.qualifiedName))
    | some value => do
      let others ← rest.rowOf pack
      .ok (value :: others)
  | branch column _ inner rest => match pack.get? column.branchKey with
    | none => .error (.contract (.missingValue column.qualifiedName))
    | some value => do
      let nested ← column.branchObject value
      let below ← inner.rowOf nested
      let others ← rest.rowOf pack
      .ok (below ++ others)

/-- The row as which a pack would be read back. -/
def Resource.rowOf (resource : Resource) (pack : Entries Json) : Except Fault Row :=
  resource.shape.rowOf pack

end TableApi
