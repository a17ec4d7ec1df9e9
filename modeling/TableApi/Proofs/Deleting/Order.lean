import TableApi.Catalog
import TableApi.Proofs.Deleting.Held

/-!
# The order of deletions

Rows are deleted the referring row first. That is safe as long as the rows of a
pack form a tree; but a pack may reach one row on two paths, and then the rows
form a graph of which the walk sees only the tree. `deletes_ordered_iff` says for
every pack when the order is safe: at each row of the tree, no row inside of a
branch refers to the row itself or to a row inside of an earlier branch
(`Shape.crossed`). A row that is reached again directly below the row at hand is
harmless, since that one is gone by then; `region_before_customer` shows a row
that is reached again one step further down.
-/

namespace TableApi

namespace HeldRow

/-- Whether two rows are one row of the database: they are of one table and have
the same primary key. -/
def sameRow (row other : HeldRow) : Bool :=
  decide (row.table.database = other.table.database ∧ row.table.name = other.table.name ∧
    row.shape.keyCells row.pack = other.shape.keyCells other.pack)

end HeldRow

/-- Whether a column with a branch refers to a row: the row in the branch is that
row, or the column's plain value is found in the referenced column there. -/
def Column.refersTo (column : Column) (opened : Placed × Shape) (pack : Entries Json)
    (other : HeldRow) : Bool :=
  (match pack.get? column.branchKey with
    | some (.obj nested) => HeldRow.sameRow ⟨opened.1.table, opened.2, nested⟩ other
    | _ => false) ||
  (match pack.get? column.qualifiedName, column.relation with
    | some value, some target =>
      other.table.database == opened.1.table.database && other.table.name == opened.1.table.name &&
        other.shape.valueOf? target.column other.pack == some value
    | _, _ => false)

/-- Whether one of a row's columns with a branch refers to another row. -/
def HeldRow.refersTo (row other : HeldRow) : Bool :=
  row.shape.nodes.any fun node => node.2.any fun opened =>
    node.1.refersTo opened row.pack other

/-- Whether some row inside of a branch refers to a row that stands before the
branch. `seen` holds the row at hand and those of its earlier branches. -/
def Shape.crossed (seen : List HeldRow) (pack : Entries Json) : Shape → Bool
  | nil => false
  | leaf _ rest => rest.crossed seen pack
  | branch column placed inner rest => match pack.get? column.branchKey with
    | some (.obj nested) =>
      let inside : List HeldRow := ⟨placed.table, inner, nested⟩ :: inner.heldBelow nested
      (inside.any fun row => seen.any row.refersTo) ||
        inner.crossed [⟨placed.table, inner, nested⟩] nested ||
        rest.crossed (seen ++ inside) pack
    | _ => rest.crossed seen pack

theorem Shape.crossed_row {seen : List HeldRow} {pack nested : Entries Json} {column : Column}
    {placed : Placed} {inner rest : Shape}
    (h : pack.get? column.branchKey = some (.obj nested)) :
    (branch column placed inner rest).crossed seen pack =
      (((⟨placed.table, inner, nested⟩ :: inner.heldBelow nested : List HeldRow).any
          fun row => seen.any row.refersTo) ||
        inner.crossed [⟨placed.table, inner, nested⟩] nested ||
        rest.crossed (seen ++ ⟨placed.table, inner, nested⟩ :: inner.heldBelow nested) pack) := by
  rw [crossed, h]

theorem Shape.crossed_of_no_row {seen : List HeldRow} {pack : Entries Json} {column : Column}
    {placed : Placed} {inner rest : Shape}
    (h : ∀ nested, pack.get? column.branchKey ≠ some (.obj nested)) :
    (branch column placed inner rest).crossed seen pack = rest.crossed seen pack := by
  rw [crossed]
  split
  · next nested hnested => exact absurd hnested (h nested)
  · rfl

/-- Whether the rows of a pack cross. -/
def Resource.crossed (resource : Resource) (pack : Entries Json) : Bool :=
  resource.shape.crossed [resource.heldRoot pack] pack

/-- No row is followed by one that refers to it. -/
def Ordered (rows : List HeldRow) : Prop :=
  rows.Pairwise fun earlier later => later.refersTo earlier = false

instance (rows : List HeldRow) : Decidable (Ordered rows) :=
  inferInstanceAs (Decidable (List.Pairwise _ _))

/-- Rows do not cross when no row refers to one that was seen before and the rows
themselves are ordered. -/
theorem Shape.crossed_eq_false_iff (shape : Shape) (pack : Entries Json) (seen : List HeldRow) :
    shape.crossed seen pack = false ↔
      (∀ other ∈ seen, ∀ row ∈ shape.heldBelow pack, row.refersTo other = false) ∧
        Ordered (shape.heldBelow pack) := by
  induction shape generalizing pack seen with
  | nil => simp [crossed, heldBelow, Ordered]
  | leaf column rest ih => exact ih pack seen
  | branch column placed inner rest ihInner ihRest =>
    by_cases hrow : ∃ nested, pack.get? column.branchKey = some (.obj nested)
    · obtain ⟨nested, hnested⟩ := hrow
      -- What is asked of the branch by itself is the statement for the branch's row.
      have hinside : Ordered (⟨placed.table, inner, nested⟩ :: inner.heldBelow nested) ↔
          inner.crossed [⟨placed.table, inner, nested⟩] nested = false := by
        rw [ihInner, Ordered, List.pairwise_cons]
        simp only [List.mem_singleton, forall_eq, Ordered]
      have hseen : ((⟨placed.table, inner, nested⟩ :: inner.heldBelow nested).any
            fun row => seen.any row.refersTo) = false ↔
          ∀ other ∈ seen, ∀ row ∈ (⟨placed.table, inner, nested⟩ :: inner.heldBelow nested :
            List HeldRow), row.refersTo other = false := by
        simp only [List.any_eq_false, Bool.not_eq_true]
        exact ⟨fun h other ho row hr => h row hr other ho,
          fun h row hr other ho => h other ho row hr⟩
      rw [crossed_row hnested, heldBelow_row hnested]
      simp only [Bool.or_eq_false_iff, hseen, ← hinside, ihRest]
      rw [Ordered, Ordered, Ordered, List.pairwise_append]
      constructor
      · rintro ⟨⟨hbefore, hbranch⟩, hbehind, hrest⟩
        refine ⟨fun other ho row hr => ?_, hbranch, hrest, fun other ho row hr => ?_⟩
        · rcases List.mem_append.1 hr with hr | hr
          · exact hbefore other ho row hr
          · exact hbehind other (List.mem_append_left _ ho) row hr
        · exact hbehind other (List.mem_append_right _ ho) row hr
      · rintro ⟨hall, hbranch, hrest, hcross⟩
        refine ⟨⟨fun other ho row hr => hall other ho row (List.mem_append_left _ hr), hbranch⟩,
          fun other ho row hr => ?_, hrest⟩
        rcases List.mem_append.1 ho with ho | ho
        · exact hall other ho row (List.mem_append_right _ hr)
        · exact hcross other ho row hr
    · have hother : ∀ nested, pack.get? column.branchKey ≠ some (.obj nested) :=
        fun nested heq => hrow ⟨nested, heq⟩
      rw [crossed_of_no_row hother, heldBelow_of_no_row hother]
      exact ihRest pack seen

/-! ## Tables that are joined once -/

def Table.key (table : Table) : String × String :=
  (table.database, table.name)

def Shape.tableKeys (shape : Shape) : List (String × String) :=
  shape.places.map fun place => place.1.table.key

/-- A row refers to rows of the tables below its own only. -/
theorem HeldRow.key_mem_of_refersTo {row other : HeldRow} (h : row.refersTo other = true) :
    other.table.key ∈ row.shape.tableKeys := by
  obtain ⟨⟨column, opened⟩, hnode, h⟩ := List.any_eq_true.1 h
  cases opened with
  | none => cases h
  | some opened =>
    refine List.mem_map.2 ⟨opened, Shape.mem_places_of_node hnode, ?_⟩
    rcases Bool.or_eq_true_iff.1 h with h | h
    · split at h
      · obtain ⟨hdatabase, hname, -⟩ := of_decide_eq_true h
        exact Prod.ext hdatabase hname
      · cases h
    · split at h
      · simp only [Bool.and_eq_true, beq_iff_eq] at h
        exact Prod.ext h.1.1.symm h.1.2.symm
      · cases h

/-- Rows do not cross where no table is joined twice. -/
theorem Shape.not_crossed_of_nodup {shape : Shape} (hnodup : shape.tableKeys.Nodup)
    (pack : Entries Json) {seen : List HeldRow}
    (hseen : ∀ other ∈ seen, other.table.key ∉ shape.tableKeys) :
    shape.crossed seen pack = false := by
  induction shape generalizing pack seen with
  | nil => rfl
  | leaf column rest ih => exact ih hnodup pack hseen
  | branch column placed inner rest ihInner ihRest =>
    have hkeys : (branch column placed inner rest).tableKeys =
        placed.table.key :: (inner.tableKeys ++ rest.tableKeys) := by
      simp [tableKeys, places]
    rw [hkeys] at hnodup hseen
    obtain ⟨hhead, hnodup⟩ := List.nodup_cons.1 hnodup
    obtain ⟨hinner, hrest, hapart⟩ := List.nodup_append.1 hnodup
    by_cases hrow : ∃ nested, pack.get? column.branchKey = some (.obj nested)
    · obtain ⟨nested, hnested⟩ := hrow
      rw [crossed_row hnested]
      -- A row of the branch is of the branch's table or of one below it.
      have hinside : ∀ row ∈ (⟨placed.table, inner, nested⟩ :: inner.heldBelow nested :
          List HeldRow), row.table.key ∈ placed.table.key :: inner.tableKeys ∧
            row.shape.tableKeys ⊆ inner.tableKeys := by
        intro row hrow
        rcases List.mem_cons.1 hrow with rfl | hrow
        · exact ⟨List.mem_cons_self, fun _ h => h⟩
        · obtain ⟨found, hfound, htable⟩ := place_of_heldBelow hrow
          refine ⟨List.mem_cons_of_mem _ (List.mem_map.2 ⟨_, hfound, ?_⟩), ?_⟩
          · rw [htable]
          · exact List.map_subset _ (places_subset hfound)
      simp only [Bool.or_eq_false_iff]
      refine ⟨⟨?_, ihInner hinner nested ?_⟩, ihRest hrest pack ?_⟩
      · rw [List.any_eq_false]
        intro row hrow hany
        obtain ⟨other, hother, hrefers⟩ := List.any_eq_true.1 hany
        have hmem := (hinside row hrow).2 (HeldRow.key_mem_of_refersTo hrefers)
        exact hseen other hother (List.mem_cons_of_mem _ (List.mem_append_left _ hmem))
      · intro other hother
        rw [List.mem_singleton.1 hother]
        exact fun hmem => hhead (List.mem_append_left _ hmem)
      · intro other hother hmem
        rcases List.mem_append.1 hother with hother | hother
        · exact hseen other hother (List.mem_cons_of_mem _ (List.mem_append_right _ hmem))
        · rcases List.mem_cons.1 (hinside other hother).1 with heq | hkey
          · exact hhead (heq ▸ List.mem_append_right _ hmem)
          · exact hapart _ hkey _ hmem rfl
    · rw [crossed_of_no_row fun nested heq => hrow ⟨nested, heq⟩]
      exact ihRest hrest pack fun other hother hmem =>
        hseen other hother (List.mem_cons_of_mem _ (List.mem_append_right _ hmem))

/-- **When deletions are in a safe order.** The batch deletes the rows that the pack
holds, in their order; and no statement deletes a row to which the row of a later
statement refers, exactly when the rows of the pack do not cross. They never do
where no table is joined twice. -/
theorem Resource.deletes_ordered_iff {resource : Resource} {pack : Entries Json}
    {batch : List Deletion} (h : resource.deletes pack = .ok batch) :
    List.Forall₂ HeldRow.DeletedBy (resource.held pack) batch ∧
      (Ordered (resource.held pack) ↔ resource.crossed pack = false) ∧
      ((resource.root.table.key :: resource.shape.tableKeys).Nodup →
        Ordered (resource.held pack)) := by
  have hiff : Ordered (resource.held pack) ↔ resource.crossed pack = false := by
    rw [crossed, Shape.crossed_eq_false_iff, held, Ordered, List.pairwise_cons]
    simp only [List.mem_singleton, forall_eq, Ordered]
  refine ⟨deletedBy_deletes h, hiff, ?_⟩
  intro hnodup
  obtain ⟨hroot, hbelow⟩ := List.nodup_cons.1 hnodup
  refine hiff.2 (Shape.not_crossed_of_nodup hbelow pack ?_)
  intro other hother
  rw [List.mem_singleton.1 hother]
  exact hroot

/-! ## A region that is reached twice -/

/-- Orders are shipped to a region and belong to a customer, who is of a region
too. -/
def regionalShop : Catalog where
  databases := ["shop"]
  tables := [("shop", "regions"), ("shop", "customers"), ("shop", "orders")]
  columns := [
    ⟨"shop", "regions", "id", "int(11)", false, "PRI", false⟩,
    ⟨"shop", "customers", "id", "int(11)", false, "PRI", false⟩,
    ⟨"shop", "customers", "region_id", "int(11)", false, "MUL", false⟩,
    ⟨"shop", "orders", "id", "int(11)", false, "PRI", false⟩,
    ⟨"shop", "orders", "ship_region_id", "int(11)", false, "MUL", false⟩,
    ⟨"shop", "orders", "customer_id", "int(11)", false, "MUL", false⟩]
  links := [⟨⟨"shop", "customers", "region_id"⟩, ⟨"shop", "regions", "id"⟩⟩,
    ⟨⟨"shop", "orders", "ship_region_id"⟩, ⟨"shop", "regions", "id"⟩⟩,
    ⟨⟨"shop", "orders", "customer_id"⟩, ⟨"shop", "customers", "id"⟩⟩]

def shippedTable : Table :=
  ((regionalShop.toSchema [] []).table? "shop.orders").getD default

def shippedResource : Resource :=
  (Resource.compile (regionalShop.toSchema [] []) shippedTable).toOption.get (by decide +kernel)

theorem compile_shippedTable :
    Resource.compile (regionalShop.toSchema [] []) shippedTable = .ok shippedResource :=
  eq_ok_get _

/-- The pack of an order that is shipped to a region, of a customer of region 7. -/
def shippedPack (region : Int) : Entries Json :=
  [("shop.orders.id", .int 1),
    ("shop.orders.ship_region_id_branch", .obj [("shop.regions.id", .int region)]),
    ("shop.orders.customer_id_branch", .obj [("shop.customers.id", .int 2),
      ("shop.customers.region_id_branch", .obj [("shop.regions.id", .int 7)])])]

/-- An order that is shipped abroad: its rows are deleted in a safe order. -/
theorem regions_apart :
    ∃ batch, Resource.compile (regionalShop.toSchema [] []) shippedTable = .ok shippedResource ∧
      (shippedResource.unpack [.int 1, .int 8, .int 2, .int 7]).bind shippedResource.packOf =
        .ok (shippedPack 8) ∧
      shippedResource.deletes (shippedPack 8) = .ok batch ∧
      batch.map (fun deletion => deletion.table.name) =
        ["orders", "regions", "customers", "regions"] ∧
      Ordered (shippedResource.held (shippedPack 8)) := by
  have hbatch := eq_ok_get (x := shippedResource.deletes (shippedPack 8)) (by decide +kernel)
  exact ⟨_, compile_shippedTable, by decide +kernel, hbatch, by decide +kernel,
    (Resource.deletes_ordered_iff hbatch).2.1.2 (by decide +kernel)⟩

/-- An order that is shipped to the customer's own region: the region is deleted
before the customer, who still refers to it. -/
theorem region_before_customer :
    ∃ batch, Resource.compile (regionalShop.toSchema [] []) shippedTable = .ok shippedResource ∧
      (shippedResource.unpack [.int 1, .int 7, .int 2, .int 7]).bind shippedResource.packOf =
        .ok (shippedPack 7) ∧
      shippedResource.deletes (shippedPack 7) = .ok batch ∧
      batch.map (fun deletion => deletion.table.name) =
        ["orders", "regions", "customers", "regions"] ∧
      ¬ Ordered (shippedResource.held (shippedPack 7)) := by
  have hbatch := eq_ok_get (x := shippedResource.deletes (shippedPack 7)) (by decide +kernel)
  exact ⟨_, compile_shippedTable, by decide +kernel, hbatch, by decide +kernel,
    by decide +kernel⟩

end TableApi
