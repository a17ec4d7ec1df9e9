import TableApi.Proofs.Inserting.Links

/-!
# The rows that a pack holds

Deleting a pack deletes the rows it holds, one statement each, in the order of
`Resource.held`: a row, then branch by branch the rows below it. What a statement
equates is the primary key of its row as the shape shows it.
-/

namespace TableApi

/-- A row of a table as a pack holds it. -/
structure HeldRow where
  table : Table
  shape : Shape
  pack : Entries Json

/-- The rows below a row, each before the rows below it. -/
def Shape.heldBelow (pack : Entries Json) : Shape → List HeldRow
  | nil => []
  | leaf _ rest => rest.heldBelow pack
  | branch column placed inner rest => match pack.get? column.branchKey with
    | some (.obj nested) =>
      ⟨placed.table, inner, nested⟩ :: inner.heldBelow nested ++ rest.heldBelow pack
    | _ => rest.heldBelow pack

theorem Shape.heldBelow_row {pack nested : Entries Json} {column : Column} {placed : Placed}
    {inner rest : Shape} (h : pack.get? column.branchKey = some (.obj nested)) :
    (branch column placed inner rest).heldBelow pack =
      (⟨placed.table, inner, nested⟩ :: inner.heldBelow nested) ++ rest.heldBelow pack := by
  rw [heldBelow, h]

theorem Shape.heldBelow_of_no_row {pack : Entries Json} {column : Column} {placed : Placed}
    {inner rest : Shape} (h : ∀ nested, pack.get? column.branchKey ≠ some (.obj nested)) :
    (branch column placed inner rest).heldBelow pack = rest.heldBelow pack := by
  rw [heldBelow]
  split
  · next nested hnested => exact absurd hnested (h nested)
  · rfl

def Resource.heldRoot (resource : Resource) (pack : Entries Json) : HeldRow :=
  ⟨resource.root.table, resource.shape, pack⟩

/-- All rows that a pack holds, in the order in which they are deleted. -/
def Resource.held (resource : Resource) (pack : Entries Json) : List HeldRow :=
  resource.heldRoot pack :: resource.shape.heldBelow pack

/-- A statement deletes a row: it names the row's table and equates the row's
primary key. -/
def HeldRow.DeletedBy (row : HeldRow) (deletion : Deletion) : Prop :=
  deletion.table = row.table ∧ row.shape.keyColumns ≠ [] ∧
    row.shape.keyCells row.pack = .ok deletion.key

namespace Shape

theorem deletion_ok {table : Table} {pack : Entries Json} {shape : Shape} {deletion : Deletion}
    (h : shape.deletion table pack = .ok deletion) :
    (⟨table, shape, pack⟩ : HeldRow).DeletedBy deletion := by
  unfold Shape.deletion at h
  split at h
  · cases h
  · next hkeys =>
    obtain ⟨key, hkey, h⟩ := ok_of_bind h
    cases h
    exact ⟨rfl, by simpa using hkeys, hkey⟩

/-- There is one statement for each row below, in the order of the rows. -/
theorem deletedBy_deletesBelow {shape : Shape} {pack : Entries Json} {batch : List Deletion}
    (h : shape.deletesBelow pack = .ok batch) :
    List.Forall₂ HeldRow.DeletedBy (shape.heldBelow pack) batch := by
  induction shape generalizing pack batch with
  | nil =>
    cases h
    exact .nil
  | leaf column rest ih => exact ih h
  | branch column placed inner rest ihInner ihRest =>
    rw [deletesBelow] at h
    rw [heldBelow]
    cases hbranch : pack.get? column.branchKey with
    | none =>
      rw [hbranch] at h
      exact ihRest h
    | some object =>
      rw [hbranch] at h
      obtain ⟨nested, hnested, h⟩ := ok_of_bind h
      obtain ⟨first, hfirst, h⟩ := ok_of_bind h
      obtain ⟨below, hbelow, h⟩ := ok_of_bind h
      obtain ⟨others, hothers, h⟩ := ok_of_bind h
      cases h
      obtain rfl := Column.branchObject_ok.1 hnested
      exact List.rel_append (.cons (deletion_ok hfirst) (ihInner hbelow)) (ihRest hothers)

/-- A row below stands at a place below. -/
theorem place_of_heldBelow {shape : Shape} {pack : Entries Json} {row : HeldRow}
    (h : row ∈ shape.heldBelow pack) :
    ∃ placed, (placed, row.shape) ∈ shape.places ∧ row.table = placed.table := by
  induction shape generalizing pack with
  | nil => cases h
  | leaf column rest ih => exact ih h
  | branch column placed inner rest ihInner ihRest =>
    have hrest : row ∈ rest.heldBelow pack → ∃ found,
        (found, row.shape) ∈ (branch column placed inner rest).places ∧
          row.table = found.table := by
      intro hmem
      obtain ⟨found, hfound, htable⟩ := ihRest hmem
      exact ⟨found, List.mem_append_right _ hfound, htable⟩
    rw [heldBelow] at h
    split at h
    · next nested _ =>
      rcases List.mem_cons.1 h with rfl | h
      · exact ⟨placed, List.mem_cons_self, rfl⟩
      rcases List.mem_append.1 h with h | h
      · obtain ⟨found, hfound, htable⟩ := ihInner h
        exact ⟨found, List.mem_append_left _ (List.mem_cons_of_mem _ hfound), htable⟩
      · exact hrest h
    · exact hrest h

/-- One column more has one cell more if it is primary, wherever its value comes from. -/
theorem names_keyCell {column : Column} {columns : List Column} {found : Except Fault Json}
    {others : Except Fault (List (String × Json))} {key : List (String × Json)}
    (hothers : ∀ cells, others = .ok cells →
      cells.map Prod.fst = (columns.filter Column.isPrimary).map Column.name)
    (h : (if column.isPrimary then do
        let value ← found
        let cells ← others
        .ok ((column.name, value) :: cells)
      else others) = .ok key) :
    key.map Prod.fst = ((column :: columns).filter Column.isPrimary).map Column.name := by
  by_cases hprimary : column.isPrimary
  · rw [if_pos hprimary] at h
    obtain ⟨value, -, h⟩ := ok_of_bind h
    obtain ⟨cells, hcells, h⟩ := ok_of_bind h
    cases h
    rw [List.filter_cons_of_pos hprimary, List.map_cons, List.map_cons, hothers cells hcells]
  · rw [if_neg hprimary] at h
    rw [List.filter_cons_of_neg hprimary]
    exact hothers key h

/-- A row's key has a cell for each primary-key column, in order. -/
theorem names_keyCells {shape : Shape} {pack : Entries Json} {key : List (String × Json)}
    (h : shape.keyCells pack = .ok key) :
    key.map Prod.fst = shape.keyColumns.map Column.name := by
  induction shape generalizing key with
  | nil =>
    cases h
    rfl
  | leaf column rest ih => exact names_keyCell (fun _ hcells => ih hcells) h
  | branch column placed inner rest _ ih => exact names_keyCell (fun _ hcells => ih hcells) h

end Shape

/-- Deleting a pack deletes the rows it holds, in their order. -/
theorem Resource.deletedBy_deletes {resource : Resource} {pack : Entries Json}
    {batch : List Deletion} (h : resource.deletes pack = .ok batch) :
    List.Forall₂ HeldRow.DeletedBy (resource.held pack) batch := by
  obtain ⟨first, hfirst, h⟩ := ok_of_bind h
  obtain ⟨below, hbelow, h⟩ := ok_of_bind h
  cases h
  exact .cons (Shape.deletion_ok hfirst) (Shape.deletedBy_deletesBelow hbelow)

end TableApi
