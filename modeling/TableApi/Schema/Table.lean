import TableApi.Schema.Column
import TableApi.Schema.IdGenerator

/-!
# Tables and databases

A schema is a list of databases, a database a list of tables, a table a list of
columns, each in the order in which the catalog lists them. Look-ups take the
first thing of a name.
-/

namespace TableApi

structure Table where
  name : String
  /-- `database.table`. -/
  qualifiedName : String
  /-- `t1`, `t2`, … once the table is part of a resource. -/
  storageAlias : Option String := none
  displayName : Name
  database : String
  columns : List Column
  policy : AccessPolicy
  ids : IdGenerator
  deriving Repr, DecidableEq, Inhabited

namespace Table

/-- A table with the identifiers that suit its first primary-key column. -/
def ofColumns (database name : String) (columns : List Column) : Table :=
  let qualifiedName := database ++ "." ++ name
  { name, qualifiedName, database, columns
    displayName := { primary := qualifiedName }
    policy := .openTo qualifiedName
    ids := match columns.find? Column.isPrimary with
      | some key => .forType key.typeTag
      | none => .uuid }

/-- The first column of a name. -/
def column? (table : Table) (name : String) : Option Column :=
  table.columns.find? fun column => column.name == name

/-- The columns that no policy excludes. -/
def visibleColumns (table : Table) : List Column :=
  table.columns.filter fun column => !column.policy.excluded

/-- The name of the resource over this table: its path, joined by underscores. -/
def resourceName (table : Table) : String :=
  Text.replaceChar '.' "_" table.qualifiedName

end Table

structure Database where
  name : String
  tables : List Table
  policy : AccessPolicy
  deriving Repr, DecidableEq, Inhabited

/-- The first table of a name. -/
def Database.table? (database : Database) (name : String) : Option Table :=
  database.tables.find? fun table => table.name == name

/-- Every database that the API may expose. -/
structure Schema where
  databases : List Database
  deriving Repr, DecidableEq, Inhabited

namespace Schema

/-- The first database of a name. -/
def database? (schema : Schema) (name : String) : Option Database :=
  schema.databases.find? fun database => database.name == name

/-- The table of a path `database.table`, cut at its first dot. -/
def table? (schema : Schema) (path : String) : Option Table := do
  let (database, table) ← Text.cutFirst '.' path
  (← schema.database? database).table? table

def column? (schema : Schema) (ref : ColumnRef) : Option Column := do
  (← (← schema.database? ref.database).table? ref.table).column? ref.column

def tables (schema : Schema) : List Table :=
  schema.databases.flatMap Database.tables

/-- Checks that a column belongs to its table and that its relation leads to a
column. -/
def checkColumn (schema : Schema) (database : Database) (table : Table) (column : Column) :
    Except SchemaFault Unit :=
  if column.database ≠ database.name ∨ column.table ≠ table.name then
    .error (.invalidShape (.foreignColumn column.qualifiedName table.qualifiedName))
  else match column.relation with
    | none => .ok ()
    | some target =>
      if (schema.column? target).isNone then .error (.missingReference "field" target.path)
      else .ok ()

/-- Checks that a table belongs to its database, and then its columns. -/
def checkTable (schema : Schema) (database : Database) (table : Table) :
    Except SchemaFault Unit :=
  if table.database ≠ database.name
      ∨ table.qualifiedName ≠ database.name ++ "." ++ table.name then
    .error (.invalidShape (.foreignTable table.qualifiedName database.name))
  else table.columns.forM (checkColumn schema database table)

/-- Checks that everything carries its owner's names and that every relation
leads somewhere; the first fault in catalog order is reported. -/
def validate (schema : Schema) : Except SchemaFault Unit :=
  schema.databases.forM fun database => database.tables.forM (checkTable schema database)

end Schema

end TableApi
