import TableApi.Resource.Mount

/-!
# Resources

A resource is a root table seen through the API: the tables it joins, the shape
of its rows and the names under which its columns can be asked for. It is
compiled once and does not change. `Resource.compile` refuses a table without
columns, and one on which two columns answer to a common name, since a filter
could not tell them apart.
-/

namespace TableApi

/-- A root table with everything it joins, as it is served. -/
structure Resource extends Mounted
  deriving Inhabited

/-- The primary display name of the first column that shares a name or alias
with a later one. -/
def sharedName? : List Column → Option String
  | [] => none
  | column :: rest =>
    if rest.any fun other => column.displayName.overlaps other.displayName then
      some column.displayName.primary
    else sharedName? rest

namespace Resource

/-- The name under which the resource is served. -/
def name (resource : Resource) : String :=
  resource.root.table.resourceName

def shape (resource : Resource) : Shape :=
  Slot.shape resource.entries

/-- A mounted table as a resource, if it has columns and they can be told apart. -/
def ofMounted (mounted : Mounted) : Except SchemaFault Resource :=
  let resource : Resource := ⟨mounted⟩
  let columns := resource.shape.leaves
  if columns.isEmpty then
    .error (.invalidShape (.noColumns mounted.root.table.qualifiedName))
  else match sharedName? columns with
    | some shared => .error (.ambiguousName resource.name shared)
    | none => .ok resource

/-- The resource over a root table. The root must be found in the schema under
its qualified name. -/
def compile (schema : Schema) (root : Table) : Except SchemaFault Resource :=
  if (schema.table? root.qualifiedName).isNone then
    .error (.missingReference "table" root.qualifiedName)
  else (schema.mountTable (maxHops + 1) [] 0 "" root).bind ofMounted

def tables (resource : Resource) : List Table :=
  resource.root.table :: resource.below

def columns (resource : Resource) : List Column :=
  resource.shape.leaves

/-- Whether a client's name means this resource: its own name, or the root
table's display name or one of its aliases. -/
def answersTo (resource : Resource) (name : String) : Bool :=
  resource.name == name || resource.root.table.displayName.matchesText name

/-- The column of a row that a display name or alias names. -/
def column? (resource : Resource) (name : String) : Option Column :=
  resource.columns.find? fun column => column.displayName.matchesText name

/-- The primary-key columns of the root table. -/
def keyColumns (resource : Resource) : List Column :=
  resource.shape.keyColumns

/-- Display names with type tags, nested along relations. -/
def types (resource : Resource) : Entries Json :=
  Entries.ofList resource.shape.typePairs

def source (table : Table) : Sql.Phrase :=
  Sql.Phrase.tableName table.database table.name ++
    [.text (" AS " ++ table.storageAlias.getD "")]

/-- The SELECT of all rows: every column from every table, under the joins. -/
def select (resource : Resource) : Sql.Phrase :=
  let all := [.text "SELECT "] ++ Sql.Phrase.joined ", " (resource.columns.map Column.reference) ++
    [.text " FROM "] ++ Sql.Phrase.joined ", " (resource.tables.map source)
  if resource.joins.isEmpty then all
  else all ++ [.text " WHERE "] ++ Sql.Phrase.joined " AND " (resource.joins.map Join.condition)

/-- The word that adds a condition to the SELECT. -/
def connector (resource : Resource) : String :=
  if resource.joins.isEmpty then " WHERE " else " AND "

end Resource

/-- Whether a fault keeps only its own resource from being served. -/
def SchemaFault.skipsResource : SchemaFault → Bool
  | .cyclic _ | .depthExceeded _ | .tooManyTables _ | .ambiguousName _ _ => true
  | .unknownAlias _ _ | .missingReference _ _ | .invalidShape _ => false

namespace Schema

/-- The tables that have a resource of their own: those that neither their
policy nor their database's excludes. -/
def servedTables (schema : Schema) : List Table :=
  (schema.databases.filter fun database => !database.policy.excluded).flatMap fun database =>
    database.tables.filter fun table => !table.policy.excluded

/-- The resources over tables, those that cannot be served left out. -/
def resourcesOf (schema : Schema) : List Table → Except SchemaFault (List Resource)
  | [] => .ok []
  | table :: rest => match Resource.compile schema table with
    | .ok resource => do .ok (resource :: (← schema.resourcesOf rest))
    | .error fault => if fault.skipsResource then schema.resourcesOf rest else .error fault

/-- Every resource of a valid schema, in catalog order. -/
def resources (schema : Schema) : Except SchemaFault (List Resource) := do
  schema.validate
  schema.resourcesOf schema.servedTables

end Schema

end TableApi
