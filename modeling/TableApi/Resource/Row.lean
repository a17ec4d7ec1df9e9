import TableApi.Resource.Compile

/-!
# Rows

The database answers a resource's SELECT with rows: one cell per column, in the
order of a depth-first walk. Unpacking gives each cell its display name and puts
the cells of a joined table into an object under the column that leads there.
-/

namespace TableApi

abbrev Row : Type := List Json

/-- Names the cells of a row, and gives back the cells left over. -/
def Shape.unpack : Shape → Row → List (String × Json) × Row
  | nil, cells => ([], cells)
  | leaf column rest, cells =>
    let (pairs, left) := rest.unpack cells.tail
    ((column.displayName.primary, cells.headD .null) :: pairs, left)
  | branch column _ inner rest, cells =>
    let (below, cells) := inner.unpack cells
    let (pairs, left) := rest.unpack cells
    ((column.displayName.primary, .obj (Entries.ofList below)) :: pairs, left)

/-- Unpacking takes as many cells as the shape has leaves. -/
theorem Shape.unpack_left (shape : Shape) (cells : Row) :
    (shape.unpack cells).2 = cells.drop shape.leaves.length := by
  induction shape generalizing cells with
  | nil => rfl
  | leaf column rest ih => simp [unpack, leaves, ih]
  | branch column placed inner rest ihInner ihRest =>
    simp [unpack, leaves, ihInner, ihRest, List.drop_drop]

/-- Unpacking names one thing for each column of the table. -/
theorem Shape.unpack_names (shape : Shape) (cells : Row) :
    (shape.unpack cells).1.map (·.1) = shape.columns.map fun c => c.displayName.primary := by
  induction shape generalizing cells with
  | nil => rfl
  | leaf column rest ih => simp [unpack, columns, ih]
  | branch column placed inner rest ihInner ihRest => simp [unpack, columns, ihRest]

/-- The object of a row. A row of any other width breaks the contract with the
database. -/
def Resource.unpack (resource : Resource) (row : Row) : Except Fault (Entries Json) :=
  if row.length = resource.columns.length then
    .ok (Entries.ofList (resource.shape.unpack row).1)
  else .error (.contract (.rowWidth resource.name resource.columns.length row.length))

end TableApi
