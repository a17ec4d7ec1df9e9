import TableApi.Server.Session

/-!
# Asking a server for its catalog

The catalog is read with four queries against `information_schema`: the
databases; then for each exposed database its tables, and for each table its
columns; at the end all foreign keys. A query that fails ends the reading, and so
does a row in which a cell is NULL or no text.
-/

namespace TableApi.Session

variable {σ : Type} (wire : Wire σ)

abbrev Reading (σ : Type) : Type → Type := ExceptT DatabaseFault (StateM σ)

def schemataQuery : String :=
  "SELECT CAST(SCHEMA_NAME AS CHAR) FROM information_schema.SCHEMATA ORDER BY SCHEMA_NAME"

/-- Asks for the tables of a database, views left out. -/
def tablesQuery : String :=
  "SELECT CAST(TABLE_NAME AS CHAR) FROM information_schema.TABLES " ++
  "WHERE TABLE_SCHEMA = ? AND TABLE_TYPE = 'BASE TABLE' ORDER BY TABLE_NAME"

/-- Asks for the columns of a table in their order. -/
def columnsQuery : String :=
  "SELECT CAST(COLUMN_NAME AS CHAR), CAST(COLUMN_TYPE AS CHAR), CAST(IS_NULLABLE AS CHAR), " ++
  "CAST(COLUMN_KEY AS CHAR), COLUMN_DEFAULT IS NOT NULL " ++
  "FROM information_schema.COLUMNS WHERE TABLE_SCHEMA = ? AND TABLE_NAME = ? " ++
  "ORDER BY ORDINAL_POSITION"

def linksQuery : String :=
  "SELECT CAST(TABLE_SCHEMA AS CHAR), CAST(TABLE_NAME AS CHAR), CAST(COLUMN_NAME AS CHAR), " ++
  "CAST(REFERENCED_TABLE_SCHEMA AS CHAR), CAST(REFERENCED_TABLE_NAME AS CHAR), " ++
  "CAST(REFERENCED_COLUMN_NAME AS CHAR) " ++
  "FROM information_schema.KEY_COLUMN_USAGE WHERE REFERENCED_TABLE_NAME IS NOT NULL"

/-- What a catalog row fails with that has another form than was asked for. -/
def oddRow : DatabaseFault := ⟨"unexpected form of a catalog row"⟩

/-- What a catalog row fails with that has no value to read in a column. Columns are
counted from 0. -/
def unreadable (column : Nat) (reason : String) : DatabaseFault :=
  ⟨"error occurred while decoding column " ++ toString column ++ ": " ++ reason⟩

/-- What a catalog row fails with that has NULL in a column. -/
def nullCell (column : Nat) : DatabaseFault :=
  unreadable column "unexpected null; try decoding as an `Option`"

def catalogRows (session : Session) (sql : String) (params : List String) :
    Reading σ (List (List Cell)) := do
  match ← ExceptT.lift (session.send wire ⟨sql, params.map .text⟩) with
  | .ok outcome => pure outcome.rows
  | .error fault => throw fault

/-- The text in a column of a catalog row. -/
def textCell (column : Nat) : Cell → Except DatabaseFault String
  | .bytes bytes => match Text.Utf8.decode bytes with
    | .ok text => .ok text
    | .error flaw => .error (unreadable column flaw.message)
  | .null => .error (nullCell column)
  | _ => .error oddRow

/-- The truth of the number in a column of a catalog row. -/
def flagCell (column : Nat) : Cell → Except DatabaseFault Bool
  | .int n => .ok (n != 0)
  | .null => .error (nullCell column)
  | _ => .error oddRow

def nameRow : List Cell → Except DatabaseFault String
  | [name] => textCell 0 name
  | _ => .error oddRow

/-- The column of a row. The first of its cells that does not read fails the row. -/
def columnRow (database table : String) : List Cell → Except DatabaseFault CatalogColumn
  | [name, typeTag, nullable, key, hasDefault] => do
    let name ← textCell 0 name
    let typeTag ← textCell 1 typeTag
    let nullable ← textCell 2 nullable
    let key ← textCell 3 key
    let hasDefault ← flagCell 4 hasDefault
    pure { database, table, name, typeTag, nullable := nullable == "YES", key, hasDefault }
  | _ => .error oddRow

/-- The column that three neighbouring cells of a catalog row name. -/
def columnCells (first : Nat) (database table column : Cell) :
    Except DatabaseFault ColumnRef := do
  let database ← textCell first database
  let table ← textCell (first + 1) table
  let column ← textCell (first + 2) column
  pure ⟨database, table, column⟩

/-- The foreign key of a row: the column it leaves from, then the one it leads to. -/
def linkRow : List Cell → Except DatabaseFault CatalogLink
  | [database, table, column, database', table', column'] => do
    let source ← columnCells 0 database table column
    let target ← columnCells 3 database' table' column'
    pure ⟨source, target⟩
  | _ => .error oddRow

/-- The columns of some tables of a database. -/
def columnsOf (session : Session) (database : String) :
    List String → Reading σ (List CatalogColumn)
  | [] => pure []
  | table :: rest => do
    let rows ← session.catalogRows wire columnsQuery [database, table]
    let columns ← (rows.mapM (columnRow database table) : Except DatabaseFault _)
    let others ← session.columnsOf database rest
    pure (columns ++ others)

/-- The tables of some databases with their columns. -/
def tablesOf (session : Session) :
    List String → Reading σ (List (String × String) × List CatalogColumn)
  | [] => pure ([], [])
  | database :: rest => do
    let rows ← session.catalogRows wire tablesQuery [database]
    let names ← (rows.mapM nameRow : Except DatabaseFault _)
    let columns ← session.columnsOf wire database names
    let (otherTables, otherColumns) ← session.tablesOf rest
    pure (names.map (fun name => (database, name)) ++ otherTables, columns ++ otherColumns)

def exposes (session : Session) (database : String) : Bool :=
  !Catalog.systemDatabases.contains database &&
    (session.databases.isEmpty || session.databases.contains database)

/-- The catalog of the exposed databases. -/
def catalog (session : Session) : Reading σ Catalog := do
  let rows ← session.catalogRows wire schemataQuery []
  let names ← (rows.mapM nameRow : Except DatabaseFault _)
  let databases := names.filter session.exposes
  let (tables, columns) ← session.tablesOf wire databases
  let rows ← session.catalogRows wire linksQuery []
  let links ← (rows.mapM linkRow : Except DatabaseFault _)
  pure { databases, tables, columns, links }

/-- The schema of the exposed databases under policies and aliases. -/
def schema (session : Session) (policies : List AccessPolicy)
    (aliases : Entries (List String)) : Reading σ Schema := do
  let catalog ← session.catalog wire
  pure (catalog.toSchema policies aliases)

end TableApi.Session
