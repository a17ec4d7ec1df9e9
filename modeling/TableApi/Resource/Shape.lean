import TableApi.Schema.Table

/-!
# The shape of a resource

A resource nests: each foreign key that is followed opens the columns of the
table it leads to. `Shape` is that tree, one node per column: a leaf, or a branch
with the table it opens and that table's own shape.

The tree comes out of an intermediate form, in which each table keeps its
columns and branches side by side as entries under keys. A column's key is its
qualified name; a branch stands under its column's key with `_branch` added.
Since a column may itself be named so, two entries can meet under one key; then
the later takes the place of the earlier. `Slot.shape` reads the tree off: a
column opens a branch exactly when a branch stands under its branch key.
-/

namespace TableApi

/-- The key of the branch that a qualified column name opens. -/
def branchKey (qualifiedName : String) : String :=
  qualifiedName ++ "_branch"

/-- The key of the branch that a column opens. -/
def Column.branchKey (column : Column) : String :=
  TableApi.branchKey column.qualifiedName

/-- A table's place in a resource: its number, counted from 0 in the order of
discovery, and the table itself. -/
structure Placed where
  index : Nat
  table : Table
  deriving Repr, DecidableEq, Inhabited

/-- The columns of a table and of the tables they lead to. -/
inductive Shape where
  | nil
  | leaf (column : Column) (rest : Shape)
  /-- A column that leads to a placed table, of which `inner` is the shape. -/
  | branch (column : Column) (placed : Placed) (inner rest : Shape)
  deriving Repr, DecidableEq, Inhabited

namespace Shape

def columns : Shape → List Column
  | nil => []
  | leaf column rest => column :: rest.columns
  | branch column _ _ rest => column :: rest.columns

/-- The columns without a branch, in the order of a depth-first walk: the
columns of a row. -/
def leaves : Shape → List Column
  | nil => []
  | leaf column rest => column :: rest.leaves
  | branch _ _ inner rest => inner.leaves ++ rest.leaves

/-- The first column of a name. -/
def column? (shape : Shape) (name : String) : Option Column :=
  shape.columns.find? fun column => column.name == name

/-- The first column that a display name or alias matches. -/
def byDisplay? (shape : Shape) (name : String) : Option Column :=
  shape.columns.find? fun column => column.displayName.matchesText name

/-- The primary-key columns of the table. -/
def keyColumns (shape : Shape) : List Column :=
  shape.columns.filter Column.isPrimary

/-- Display names with type tags, nested under the columns that open a branch. -/
def typePairs : Shape → List (String × Json)
  | nil => []
  | leaf column rest => (column.displayName.primary, .str column.typeTag) :: rest.typePairs
  | branch column _ inner rest =>
    (column.displayName.primary, .obj (Entries.ofList inner.typePairs)) :: rest.typePairs

end Shape

/-- What stands under a key of a table: a column, or a branch with the table it
opens and that table's own entries. -/
inductive Slot where
  | column (column : Column)
  | branch (placed : Placed) (entries : List (String × Slot))
  deriving Repr, Inhabited

namespace Slot

/-- The columns among entries in order, each with the branch that stands under
its branch key. -/
def link (branches : Entries (Placed × Shape)) : Entries Slot → Shape
  | [] => .nil
  | (key, column c) :: rest => match branches.get? (branchKey key) with
    | some (placed, inner) => .branch c placed inner (link branches rest)
    | none => .leaf c (link branches rest)
  | (_, branch _ _) :: rest => link branches rest

mutual

/-- The table that a branch opens, with its shape. -/
def opened? : Slot → Option (Placed × Shape)
  | column _ => none
  | branch placed entries => some (placed, link (branches entries) entries)

/-- The branches among entries, each with its shape. -/
def branches : List (String × Slot) → Entries (Placed × Shape)
  | [] => []
  | (key, slot) :: rest => match opened? slot with
    | some found => (key, found) :: branches rest
    | none => branches rest

end

def shape (entries : Entries Slot) : Shape :=
  link (branches entries) entries

/-- A branch opens its table with the tree of that table's entries. -/
theorem opened?_branch (placed : Placed) (entries : Entries Slot) :
    opened? (branch placed entries) = some (placed, shape entries) := by
  rw [opened?, shape]

/-- The branches are what the entries open, under their keys. -/
theorem branches_eq_filterMap (entries : Entries Slot) :
    branches entries = entries.filterMap fun entry => (opened? entry.2).map (entry.1, ·) := by
  induction entries with
  | nil => rw [branches]; rfl
  | cons entry rest ih =>
    obtain ⟨key, slot⟩ := entry
    rw [branches, ih]
    cases h : opened? slot <;> simp [h]

/-- The columns of the tree are the columns among the entries, in order. -/
theorem columns_link (found : Entries (Placed × Shape)) (entries : Entries Slot) :
    (link found entries).columns = entries.filterMap fun entry => match entry.2 with
      | column c => some c
      | branch _ _ => none := by
  induction entries with
  | nil => rfl
  | cons entry rest ih =>
    obtain ⟨key, slot⟩ := entry
    cases slot with
    | column c => cases h : found.get? (branchKey key) <;> simp [link, h, Shape.columns, ih]
    | branch placed entries => simp [link, ih]

end Slot

end TableApi
