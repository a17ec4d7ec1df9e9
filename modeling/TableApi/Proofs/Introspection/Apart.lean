import TableApi.Proofs.Expansion.Addresses
import TableApi.Proofs.Introspection.Exact
import TableApi.Proofs.Packing.Complete

/-!
# Where the names of what is served are apart

What is stored and deleted is described for tables with keys that are apart
(`Schema.KeysApart`), a condition on qualified names and on the keys of branches. All columns
of a table stand under one path, so this says something of their own names only: no two of
them share a name, and none is named as the branch of another
(`Schema.Valid.keysApart_iff`, `Resource.keysApart_iff`).

A schema that is made from a catalog meets the first part wherever the catalog lists each
column once. What is left to ask of the database behind an API is that no table has a column
`customer_id_branch` beside a foreign key `customer_id` that is followed:
`Catalog.Distinct.names_apart`.
-/

namespace TableApi

namespace Schema

/-- The qualified name of every column is its path. -/
def CarriesPaths (schema : Schema) : Prop :=
  ∀ table ∈ schema.tables, ∀ column ∈ table.columns, column.qualifiedName = column.ref.path

/-- No column of a table is named as the branch of a foreign key that is followed. -/
def BranchesUnnamed (schema : Schema) (table : Table) : Prop :=
  ∀ column ∈ table.visibleColumns, schema.isLive column = true →
    ∀ other ∈ table.visibleColumns, other.name ≠ branchKey column.name

instance (schema : Schema) (table : Table) : Decidable (schema.BranchesUnnamed table) :=
  inferInstanceAs (Decidable (∀ column ∈ table.visibleColumns, _ → _))

variable {schema : Schema} {table : Table}

/-! ## Columns under one path -/

/-- Where the columns of a table stand under one path, their keys are apart exactly when their
names are. -/
theorem keysApart_iff_of_lead {lead : String}
    (hlead : ∀ column ∈ table.visibleColumns, column.qualifiedName = lead ++ column.name) :
    schema.KeysApart table ↔
      (table.visibleColumns.map Column.name).Nodup ∧ schema.BranchesUnnamed table := by
  have hnames : table.visibleColumns.map Column.qualifiedName =
      (table.visibleColumns.map Column.name).map (lead ++ ·) := by
    rw [List.map_map]
    exact List.map_congr_left hlead
  have hnodup : (table.visibleColumns.map Column.qualifiedName).Nodup ↔
      (table.visibleColumns.map Column.name).Nodup := by
    rw [hnames, List.nodup_map_iff fun _ _ => (String.append_right_inj lead).1]
  have hbranch : ∀ column ∈ table.visibleColumns, ∀ other ∈ table.visibleColumns,
      (other.qualifiedName ≠ column.branchKey ↔ other.name ≠ branchKey column.name) := by
    intro column hcolumn other hother
    rw [Column.branchKey, hlead column hcolumn, hlead other hother, branchKey, branchKey,
      String.append_assoc, Ne, String.append_right_inj]
  constructor
  · intro h
    exact ⟨hnodup.1 h.columns, fun column hcolumn hlive other hother =>
      (hbranch column hcolumn other hother).1 (h.branches column hcolumn hlive other hother)⟩
  · rintro ⟨hcolumns, hbranches⟩
    exact ⟨hnodup.2 hcolumns, fun column hcolumn hlive other hother =>
      (hbranch column hcolumn other hother).2 (hbranches column hcolumn hlive other hother)⟩

/-- In a valid schema the path of a column begins with that of its table. -/
theorem Valid.qualifiedName_eq (hvalid : schema.Valid) (hpaths : schema.CarriesPaths)
    (htable : table ∈ schema.tables) {column : Column} (hcolumn : column ∈ table.columns) :
    column.qualifiedName = table.qualifiedName ++ "." ++ column.name := by
  rw [hpaths table htable column hcolumn]
  obtain ⟨database, hdatabase, htable⟩ := List.mem_flatMap.1 htable
  have htableValid := hvalid database hdatabase table htable
  obtain ⟨hdatabaseName, htableName⟩ := htableValid.columns column hcolumn
  rw [htableValid.path, ColumnRef.path, Column.ref, hdatabaseName, htableName]

/-- **Keys are apart where names are.** In a valid schema whose columns carry their paths, the
keys of a table are apart exactly when no two of its columns share a name and none is named as
the branch of a foreign key that is followed. -/
theorem Valid.keysApart_iff (hvalid : schema.Valid) (hpaths : schema.CarriesPaths)
    (htable : table ∈ schema.tables) :
    schema.KeysApart table ↔
      (table.visibleColumns.map Column.name).Nodup ∧ schema.BranchesUnnamed table :=
  keysApart_iff_of_lead fun _ hcolumn =>
    hvalid.qualifiedName_eq hpaths htable (List.mem_of_mem_filter hcolumn)

end Schema

/-! ## The tables of a resource -/

namespace Resource

variable {schema : Schema} {root : Table} {resource : Resource}

/-- The tables of a resource are tables of the schema, each under the alias of its number. -/
theorem exists_placed_of_mem_tables (hcompile : compile schema root = .ok resource)
    (hroot : root ∈ schema.tables) {table : Table} (htable : table ∈ resource.tables) :
    ∃ found ∈ schema.tables, ∃ index, table = (found.placedAt index).table := by
  obtain ⟨expansion, hexpands, hmounted, -⟩ := mounted_of_compile hcompile
  rw [tables_eq hmounted] at htable
  rcases List.mem_cons.1 htable with rfl | htable
  · exact ⟨root, hroot, 0, rfl⟩
  · obtain ⟨hop, hhop, rfl⟩ := List.mem_map.1 htable
    exact ⟨hop.table, hexpands.mem_tables_of_mem_hops hhop, hop.index, rfl⟩

/-- The keys of a resource are apart exactly when the names of its columns are, and none is the
name of a branch. -/
theorem keysApart_iff (hvalid : schema.Valid) (hpaths : schema.CarriesPaths)
    (hroot : root ∈ schema.tables) (hcompile : compile schema root = .ok resource) :
    (∀ table ∈ resource.tables, schema.KeysApart table) ↔
      resource.ColumnsApart ∧ ∀ table ∈ resource.tables, schema.BranchesUnnamed table := by
  have htables : ∀ table ∈ resource.tables, (schema.KeysApart table ↔
      (table.visibleColumns.map Column.name).Nodup ∧ schema.BranchesUnnamed table) := by
    intro table htable
    obtain ⟨found, hfound, index, rfl⟩ := exists_placed_of_mem_tables hcompile hroot htable
    rw [Schema.keysApart_placedAt]
    exact hvalid.keysApart_iff hpaths hfound
  rw [forall₂_congr htables]
  exact ⟨fun h => ⟨fun table htable => (h table htable).1, fun table htable => (h table htable).2⟩,
    fun h table htable => ⟨h.1 table htable, h.2 table htable⟩⟩

end Resource

/-! ## Schemas of catalogs -/

namespace Catalog

variable {catalog : Catalog} {policies : List AccessPolicy} {aliases : Entries (List String)}

theorem carriesPaths_toSchema : (catalog.toSchema policies aliases).CarriesPaths := by
  intro table htable column hcolumn
  obtain ⟨database, hdatabase, htable⟩ := List.mem_flatMap.1 htable
  have hkeeps := keeps_toSchema catalog policies aliases
  have hsettled := settled_toSchema catalog policies aliases database hdatabase table htable
  obtain ⟨hdatabaseName, htableName⟩ := hsettled.owner column hcolumn
  rw [(hkeeps.column_path hdatabase htable hcolumn).2, ColumnRef.path, Column.ref,
    hdatabaseName, htableName]

/-- Columns are told apart by their names, and these are what they show under. -/
theorem Distinct.apart_toSchema (h : catalog.Distinct) {table : Table}
    (htable : table ∈ (catalog.toSchema policies aliases).tables) :
    (table.visibleColumns.map Column.name).Nodup ∧ table.PrimariesApart := by
  obtain ⟨database, hdatabase, htable⟩ := List.mem_flatMap.1 htable
  have hkeeps := keeps_toSchema catalog policies aliases
  obtain ⟨owner, -, hdatabaseKeeps⟩ := exists_of_forall₂_left hkeeps hdatabase
  obtain ⟨listed, -, htableKeeps⟩ := exists_of_forall₂_left hdatabaseKeeps.tables htable
  have hnodup : (table.visibleColumns.map Column.name).Nodup :=
    (htableKeeps.nodup_columns h).sublist (List.filter_sublist.map _)
  have hshown : (table.visibleColumns.map fun column => column.displayName.primary) =
      table.visibleColumns.map Column.name :=
    List.map_congr_left fun column hcolumn =>
      (hkeeps.column_path hdatabase htable (List.mem_of_mem_filter hcolumn)).1
  exact ⟨hnodup, by rwa [Table.PrimariesApart, hshown]⟩

variable {root : Table} {resource : Resource}

/-- **Names are apart in what is served.** Over a catalog that lists each column once, no two
columns of a table of a resource have one name or show under one, and the keys are apart
exactly if no column is named as the branch of a foreign key that is followed. -/
theorem Distinct.names_apart (h : catalog.Distinct)
    (hroot : root ∈ (catalog.toSchema policies aliases).tables)
    (hcompile : Resource.compile (catalog.toSchema policies aliases) root = .ok resource) :
    resource.ColumnsApart ∧ (∀ table ∈ resource.tables, table.PrimariesApart) ∧
      ((∀ table ∈ resource.tables, (catalog.toSchema policies aliases).KeysApart table) ↔
        ∀ table ∈ resource.tables, (catalog.toSchema policies aliases).BranchesUnnamed table) := by
  have hapart : ∀ table ∈ resource.tables,
      (table.visibleColumns.map Column.name).Nodup ∧ table.PrimariesApart := by
    intro table htable
    obtain ⟨found, hfound, index, rfl⟩ :=
      Resource.exists_placed_of_mem_tables hcompile hroot htable
    -- The alias under which a table stands does not change its columns.
    have hnames := h.apart_toSchema hfound
    exact hnames
  have hcolumns : resource.ColumnsApart := fun table htable => (hapart table htable).1
  have hkeys := Resource.keysApart_iff (valid_toSchema catalog policies aliases)
    carriesPaths_toSchema hroot hcompile
  exact ⟨hcolumns, fun table htable => (hapart table htable).2,
    hkeys.trans (and_iff_right hcolumns)⟩

/-- Every resource that is served has its keys apart, if no table of the schema has a column
that is named as the branch of a foreign key that is followed. -/
theorem Distinct.keysApart_of_served (h : catalog.Distinct) {resources : List Resource}
    (hserved : (catalog.toSchema policies aliases).resources = .ok resources)
    (hunnamed : ∀ table ∈ (catalog.toSchema policies aliases).tables,
      (catalog.toSchema policies aliases).BranchesUnnamed table) :
    ∀ resource ∈ resources, ∃ root,
      Resource.compile (catalog.toSchema policies aliases) root = .ok resource ∧
        ∀ table ∈ resource.tables, (catalog.toSchema policies aliases).KeysApart table := by
  intro resource hresource
  obtain ⟨root, hroot, hcompile⟩ := Schema.compile_of_mem_resources hserved hresource
  have hroot := Schema.servedTables_subset hroot
  obtain ⟨-, -, hkeys⟩ := h.names_apart hroot hcompile
  refine ⟨root, hcompile, hkeys.2 fun table htable => ?_⟩
  obtain ⟨found, hfound, index, rfl⟩ :=
    Resource.exists_placed_of_mem_tables hcompile hroot htable
  exact hunnamed found hfound

/-- In `branchedShop` a column of orders has the name of their branch; in `addressedShop` no
column of a table has such a name. -/
example :
    ¬ (branchedShop.toSchema [] []).BranchesUnnamed branchedTable ∧
      ∀ table ∈ (addressedShop.toSchema [] []).tables,
        (addressedShop.toSchema [] []).BranchesUnnamed table := by
  decide +kernel

end Catalog

end TableApi
