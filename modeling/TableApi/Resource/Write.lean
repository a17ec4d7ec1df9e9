import TableApi.Resource.Pack

/-!
# Inserting and deleting

A pack holds one row of each table that it reaches. `inserts` lists these rows,
those that others refer to first, so that every foreign key is satisfied when its
statement runs. `deletes` goes the other way round: the referring row first, by
its primary key, then the rows it refers to. An `Insertion` and a `Deletion` each
spell one statement.

The value of a column with a branch is that of the column it references, found
in the branch; that column may again be one with a branch.
-/

namespace TableApi

/-- The value that a pack holds for a column with a branch: its own entry, or
else what `inBranch` finds for the referenced column in the branch's object. -/
def Column.heldIn? (column : Column) (pack : Entries Json)
    (inBranch : String → Entries Json → Option Json) : Option Json :=
  match pack.get? column.qualifiedName, column.relation, pack.get? column.branchKey with
  | some value, _, _ => some value
  | none, some target, some (.obj nested) => inBranch target.column nested
  | none, _, _ => none

/-- The value that a pack holds for the first column of a name. -/
def Shape.valueOf? (name : String) (pack : Entries Json) : Shape → Option Json
  | nil => none
  | leaf column rest =>
    if column.name = name then pack.get? column.qualifiedName else rest.valueOf? name pack
  | branch column _ inner rest =>
    if column.name = name then column.heldIn? pack fun name nested => inner.valueOf? name nested
    else rest.valueOf? name pack

/-- A value that must be there. -/
def Column.required (column : Column) : Option Json → Except Fault Json
  | some value => .ok value
  | none => .error (.contract (.missingValue column.qualifiedName))

/-- A row to be inserted: its table, and names and values of its columns in the
same order. -/
structure Insertion where
  table : Table
  cells : List (String × Json)
  deriving Inhabited

def Insertion.phrase (insertion : Insertion) : Sql.Phrase :=
  [.text "INSERT INTO "] ++
    Sql.Phrase.tableName insertion.table.database insertion.table.name ++ [.text " ("] ++
    Sql.Phrase.joined ", " (insertion.cells.map fun cell => [.name cell.1]) ++
    [.text ") VALUES ("] ++
    Sql.Phrase.joined ", " (insertion.cells.map fun cell => [.value cell.2]) ++ [.text ")"]

def Insertion.statement (insertion : Insertion) : Statement :=
  insertion.phrase.statement

/-- The rows to be inserted below a row, and the row's own names and values. -/
def Shape.inserts (pack : Entries Json) :
    Shape → Except Fault (List Insertion × List (String × Json))
  | nil => .ok ([], [])
  | leaf column rest => do
    let value ← column.required (pack.get? column.qualifiedName)
    let (below, cells) ← rest.inserts pack
    .ok (below, (column.name, value) :: cells)
  | branch column placed inner rest => do
    -- This row refers to the branch's row, so that one goes first.
    let first ← match pack.get? column.branchKey with
      | none => .ok []
      | some value => do
        let nested ← column.branchObject value
        let (below, cells) ← inner.inserts nested
        .ok (below ++ [⟨placed.table, cells⟩])
    let value ← column.required
      (column.heldIn? pack fun name nested => inner.valueOf? name nested)
    let (below, cells) ← rest.inserts pack
    .ok (first ++ below, (column.name, value) :: cells)

/-- The rows of a pack to be inserted, referenced rows first. -/
def Resource.inserts (resource : Resource) (pack : Entries Json) :
    Except Fault (List Insertion) := do
  let (below, cells) ← resource.shape.inserts pack
  .ok (below ++ [⟨resource.root.table, cells⟩])

/-- The values of the primary key in a pack, under the names of the columns. -/
def Shape.keyCells (pack : Entries Json) : Shape → Except Fault (List (String × Json))
  | nil => .ok []
  | leaf column rest =>
    if column.isPrimary then do
      let value ← column.required (pack.get? column.qualifiedName)
      let cells ← rest.keyCells pack
      .ok ((column.name, value) :: cells)
    else rest.keyCells pack
  | branch column _ inner rest =>
    if column.isPrimary then do
      let value ← column.required
        (column.heldIn? pack fun name nested => inner.valueOf? name nested)
      let cells ← rest.keyCells pack
      .ok ((column.name, value) :: cells)
    else rest.keyCells pack

/-- A row to be deleted: its table, and names and values of its primary key. -/
structure Deletion where
  table : Table
  key : List (String × Json)
  deriving Inhabited

/-- The DELETE of a row by its primary key. -/
def Deletion.phrase (deletion : Deletion) : Sql.Phrase :=
  [.text "DELETE FROM "] ++
    Sql.Phrase.tableName deletion.table.database deletion.table.name ++ [.text " WHERE "] ++
    Sql.Phrase.joined " AND "
      (deletion.key.map fun cell => [.name cell.1, .text " = ", .value cell.2])

def Deletion.statement (deletion : Deletion) : Statement :=
  deletion.phrase.statement

/-- The row of a table that a pack holds, to be deleted. Without a primary key
there is nothing to delete it by. -/
def Shape.deletion (table : Table) (pack : Entries Json) (shape : Shape) :
    Except Fault Deletion :=
  if shape.keyColumns.isEmpty then
    .error (.integrity (.nothingToDeleteBy table.qualifiedName))
  else do
    let key ← shape.keyCells pack
    .ok ⟨table, key⟩

/-- The rows below a row, each before the rows that it refers to. -/
def Shape.deletesBelow (pack : Entries Json) : Shape → Except Fault (List Deletion)
  | nil => .ok []
  | leaf _ rest => rest.deletesBelow pack
  | branch column placed inner rest => match pack.get? column.branchKey with
    | none => rest.deletesBelow pack
    | some value => do
      let nested ← column.branchObject value
      let first ← inner.deletion placed.table nested
      let below ← inner.deletesBelow nested
      let others ← rest.deletesBelow pack
      .ok (first :: below ++ others)

/-- The rows of a pack to be deleted, referring rows first. -/
def Resource.deletes (resource : Resource) (pack : Entries Json) :
    Except Fault (List Deletion) := do
  let first ← resource.shape.deletion resource.root.table pack
  let below ← resource.shape.deletesBelow pack
  .ok (first :: below)

end TableApi
