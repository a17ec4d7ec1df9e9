import TableApi.Schema.Table

/-!
# From catalog rows to a schema

A catalog is what the database says about itself: databases, tables, columns in
their order, and foreign keys. `Catalog.toSchema` keeps what the policies allow,
sets the relations whose two ends both survive, and adds the configured aliases.
A foreign key that is listed later replaces an earlier one of the same column.
-/

namespace TableApi

structure CatalogColumn where
  database : String
  table : String
  name : String
  typeTag : String
  nullable : Bool
  /-- `PRI`, `UNI`, `MUL` or nothing. -/
  key : String
  hasDefault : Bool
  deriving Repr, DecidableEq

/-- A foreign key as the catalog lists it. -/
structure CatalogLink where
  source : ColumnRef
  target : ColumnRef
  deriving Repr, DecidableEq

structure Catalog where
  databases : List String
  /-- Database and table. -/
  tables : List (String × String) := []
  columns : List CatalogColumn := []
  links : List CatalogLink := []
  deriving Repr, DecidableEq

def updateFirst {α : Type} (fits : α → Bool) (change : α → α) : List α → List α
  | [] => []
  | item :: rest =>
    if fits item then change item :: rest else item :: updateFirst fits change rest

namespace Schema

/-- Changes the first table of a name in the first database of a name. -/
def updateTable (schema : Schema) (database table : String) (change : Table → Table) : Schema :=
  ⟨updateFirst (fun d => d.name == database)
    (fun d => { d with tables := updateFirst (fun t => t.name == table) change d.tables })
    schema.databases⟩

def updateColumn (schema : Schema) (ref : ColumnRef) (change : Column → Column) : Schema :=
  schema.updateTable ref.database ref.table fun table =>
    { table with columns := updateFirst (fun c => c.name == ref.column) change table.columns }

/-- Sets the relation of a foreign key, unless its target did not survive. -/
def link (schema : Schema) (entry : CatalogLink) : Schema :=
  if (schema.column? entry.target).isNone then schema
  else schema.updateColumn entry.source fun column => column.references entry.target

/-- Adds aliases to the table or column that a path names; a path to neither
changes nothing. -/
def addAliases (schema : Schema) (path : String) (aliases : List String) : Schema :=
  match Text.split '.' path with
  | [database, table] =>
    schema.updateTable database table fun t =>
      { t with displayName := t.displayName.addAliases aliases }
  | [database, table, column] =>
    schema.updateColumn ⟨database, table, column⟩ fun c =>
      { c with displayName := c.displayName.addAliases aliases }
  | _ => schema

end Schema

namespace Catalog

/-- Databases of the database server itself, never part of the API. -/
def systemDatabases : List String :=
  ["information_schema", "mysql", "performance_schema", "sys"]

/-- The column of a catalog row, unless a policy excludes it. -/
def toColumn? (policies : List AccessPolicy) (row : CatalogColumn) : Option Column :=
  let plain := Column.ofType row.database row.table row.name row.typeTag
  let policy := AccessPolicy.forSubject plain.qualifiedName policies
  if policy.excluded then none
  else some { plain with
    nullable := row.nullable
    hasDefault := row.hasDefault
    policy
    keyRole := .ofCatalog row.key }

/-- The table of a catalog row, unless a policy excludes it. -/
def toTable? (catalog : Catalog) (policies : List AccessPolicy) (database name : String) :
    Option Table :=
  let policy := AccessPolicy.forSubject (database ++ "." ++ name) policies
  if policy.excluded then none
  else
    let rows := catalog.columns.filter fun row => row.database == database && row.table == name
    some { Table.ofColumns database name (rows.filterMap (toColumn? policies)) with policy }

/-- The database of a name, unless it is the server's own or excluded. -/
def toDatabase? (catalog : Catalog) (policies : List AccessPolicy) (name : String) :
    Option Database :=
  let policy := AccessPolicy.forSubject name policies
  if systemDatabases.contains name || policy.excluded then none
  else
    let rows := catalog.tables.filter fun row => row.1 == name
    some ⟨name, rows.filterMap fun row => catalog.toTable? policies name row.2, policy⟩

/-- The schema of a catalog under policies and aliases. -/
def toSchema (catalog : Catalog) (policies : List AccessPolicy)
    (aliases : Entries (List String)) : Schema :=
  let bare : Schema := ⟨catalog.databases.filterMap (catalog.toDatabase? policies)⟩
  let linked := catalog.links.foldl Schema.link bare
  aliases.foldl (fun schema entry => schema.addAliases entry.1 entry.2) linked

end Catalog

end TableApi
