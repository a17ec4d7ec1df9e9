import TableApi.Proofs.Introspection.Relations

/-!
# What a schema says of a catalog without repetitions

Where the catalog lists each database, table and column once, every column of the schema is
found at its own address (`Schema.Keeps.column?_ref`), so that its relation is the one that
its foreign keys give. With what the schema keeps of the catalog and what aliases leave as
it is, this determines the schema up to aliases: `Catalog.toSchema_exact`.
-/

namespace TableApi

/-! ## Names and places -/

/-- Things that are related one by one have the same names. -/
theorem map_eq_of_forall₂ {α β : Type} {name : α → String} {key : β → String} {r : α → β → Prop}
    {items : List α} {others : List β} (h : List.Forall₂ r items others)
    (hname : ∀ item other, r item other → name item = key other) :
    items.map name = others.map key := by
  induction h with
  | nil => rfl
  | cons hfirst _ ih => rw [List.map_cons, List.map_cons, hname _ _ hfirst, ih]

/-- Where a column stands, as it says itself. -/
def Column.ref (column : Column) : ColumnRef := ⟨column.database, column.table, column.name⟩

def CatalogColumn.ref (row : CatalogColumn) : ColumnRef := ⟨row.database, row.table, row.name⟩

namespace Catalog

/-- Each database, table and column is listed once. -/
structure Distinct (catalog : Catalog) : Prop where
  databases : catalog.databases.Nodup
  tables : catalog.tables.Nodup
  columns : (catalog.columns.map CatalogColumn.ref).Nodup

namespace Distinct

variable {catalog : Catalog} (policies : List AccessPolicy)

theorem nodup_keptDatabases (h : catalog.Distinct) : (catalog.keptDatabases policies).Nodup :=
  h.databases.filter _

theorem nodup_keptTables (h : catalog.Distinct) (database : String) :
    (catalog.keptTables policies database).Nodup := by
  refine List.Nodup.filter _ (List.Nodup.map_on ?_ (h.tables.filter _))
  intro row hrow other hother hname
  have howner : ∀ listed ∈ catalog.tables.filter fun row => row.1 == database,
      listed.1 = database := by
    intro listed hlisted
    simpa using (List.mem_filter.1 hlisted).2
  exact Prod.ext ((howner row hrow).trans (howner other hother).symm) hname

theorem nodup_keptColumns (h : catalog.Distinct) (database table : String) :
    ((catalog.keptColumns policies database table).map CatalogColumn.name).Nodup := by
  refine List.Nodup.map_on ?_ (((List.Nodup.of_map _ h.columns).filter _).filter _)
  intro row hrow other hother hname
  refine List.inj_on_of_nodup_map h.columns ?_ ?_ ?_
  · exact List.mem_of_mem_filter (List.mem_of_mem_filter hrow)
  · exact List.mem_of_mem_filter (List.mem_of_mem_filter hother)
  · obtain ⟨hdatabase, htable⟩ := owner_of_mem_keptColumns hrow
    obtain ⟨hdatabase', htable'⟩ := owner_of_mem_keptColumns hother
    rw [CatalogColumn.ref, CatalogColumn.ref, hdatabase, hdatabase', htable, htable', hname]

end Distinct

end Catalog

/-! ## Columns at their own addresses -/

/-- Where the catalog does not repeat itself, neither does a table its columns. -/
theorem Table.Keeps.nodup_columns {catalog : Catalog} {policies : List AccessPolicy}
    {owner listed : String} {table : Table} (h : table.Keeps catalog policies owner listed)
    (hdistinct : catalog.Distinct) : (table.columns.map Column.name).Nodup := by
  rw [map_eq_of_forall₂ h.columns fun _ _ hkeeps => hkeeps.name]
  exact hdistinct.nodup_keptColumns policies owner listed

/-- Where the catalog does not repeat itself, every column is found at its own address. -/
theorem Schema.Keeps.column?_ref {schema : Schema} {catalog : Catalog} {policies : List AccessPolicy}
    (h : schema.Keeps catalog policies) (hdistinct : catalog.Distinct) {database : Database}
    (hdatabase : database ∈ schema.databases) {table : Table} (htable : table ∈ database.tables)
    {column : Column} (hcolumn : column ∈ table.columns) :
    schema.column? column.ref = some column := by
  obtain ⟨owner, -, hkeeps⟩ := exists_of_forall₂_left h hdatabase
  obtain ⟨listed, -, htableKeeps⟩ := exists_of_forall₂_left hkeeps.tables htable
  obtain ⟨row, hrow, hcolumnKeeps⟩ := exists_of_forall₂_left htableKeeps.columns hcolumn
  obtain ⟨hrowDatabase, hrowTable⟩ := Catalog.owner_of_mem_keptColumns hrow
  have hdatabaseName : column.database = database.name :=
    (hcolumnKeeps.database.trans hrowDatabase).trans hkeeps.name.symm
  have htableName : column.table = table.name :=
    (hcolumnKeeps.table.trans hrowTable).trans htableKeeps.name.symm
  have hdatabases : (schema.databases.map Database.name).Nodup := by
    rw [map_eq_of_forall₂ h fun _ _ hkeeps => hkeeps.name]
    simpa using hdistinct.nodup_keptDatabases policies
  have htables : (database.tables.map Table.name).Nodup := by
    rw [map_eq_of_forall₂ hkeeps.tables fun _ _ hkeeps => hkeeps.name]
    simpa using hdistinct.nodup_keptTables policies owner
  refine Option.bind_eq_some_iff.2 ⟨database, ?_, Option.bind_eq_some_iff.2 ⟨table, ?_, ?_⟩⟩
  · rw [Column.ref, hdatabaseName]
    exact Schema.find?_by_name hdatabases hdatabase
  · rw [Column.ref, htableName]
    exact Schema.find?_by_name htables htable
  · exact Schema.find?_by_name (htableKeeps.nodup_columns hdistinct) hcolumn

/-! ## A schema up to aliases -/

def Name.withoutAliases (name : Name) : Name := { name with aliases := [] }

def Column.withoutAliases (column : Column) : Column :=
  { column with displayName := column.displayName.withoutAliases }

def Table.withoutAliases (table : Table) : Table :=
  { table with
    displayName := table.displayName.withoutAliases
    columns := table.columns.map Column.withoutAliases }

def Database.withoutAliases (database : Database) : Database :=
  { database with tables := database.tables.map Table.withoutAliases }

/-- The schema with no names but the primary ones. -/
def Schema.withoutAliases (schema : Schema) : Schema :=
  ⟨schema.databases.map Database.withoutAliases⟩

theorem Name.withoutAliases_addAliases (name : Name) (aliases : List String) :
    (name.addAliases aliases).withoutAliases = name.withoutAliases := by
  rw [withoutAliases, withoutAliases, Name.mk.injEq]
  exact ⟨name.primary_addAliases aliases, rfl⟩

namespace Schema

variable {schema : Schema}

theorem withoutAliases_updateTable {database name : String} {change : Table → Table}
    (hchange : ∀ table, (change table).withoutAliases = table.withoutAliases) :
    (schema.updateTable database name change).withoutAliases = schema.withoutAliases := by
  refine congrArg Schema.mk (map_updateFirst (fun found => ?_) schema.databases)
  rw [Database.withoutAliases, Database.withoutAliases, map_updateFirst hchange]

theorem withoutAliases_addAliases (path : String) (aliases : List String) :
    (schema.addAliases path aliases).withoutAliases = schema.withoutAliases := by
  unfold addAliases
  split
  · refine withoutAliases_updateTable fun table => ?_
    rw [Table.withoutAliases, Table.withoutAliases, Name.withoutAliases_addAliases]
  · refine withoutAliases_updateTable fun table => ?_
    have hcolumn : ∀ column : Column,
        Column.withoutAliases { column with displayName := column.displayName.addAliases aliases } =
          column.withoutAliases := by
      intro column
      rw [Column.withoutAliases, Column.withoutAliases, Name.withoutAliases_addAliases]
    rw [Table.withoutAliases, Table.withoutAliases, map_updateFirst hcolumn]
  · rfl

end Schema

namespace Catalog

variable {catalog : Catalog} (policies : List AccessPolicy) (aliases : Entries (List String))

theorem withoutAliases_toSchema :
    (catalog.toSchema policies aliases).withoutAliases =
      (catalog.toSchema policies []).withoutAliases :=
  Schema.foldl_addAliases_eq Schema.withoutAliases (fun _ => Schema.withoutAliases_addAliases)
    aliases _

/-- A schema is what the policies leave of its catalog, in the catalog's order. Where the catalog
does not repeat itself, a column refers to the target of the last foreign key from it to a column
that survives, and to nothing if there is none. Aliases are seen nowhere but in the lists of
aliases. -/
theorem toSchema_exact (hdistinct : catalog.Distinct) :
    (catalog.toSchema policies aliases).Keeps catalog policies ∧
      ((catalog.toSchema policies aliases).Holds fun _ table => ∀ column ∈ table.columns,
        column.relation = catalog.lastTarget? policies catalog.links column.ref) ∧
      (catalog.toSchema policies aliases).withoutAliases =
        (catalog.toSchema policies []).withoutAliases := by
  have hkeeps := keeps_toSchema catalog policies aliases
  refine ⟨hkeeps, ?_, withoutAliases_toSchema policies aliases⟩
  intro database hdatabase table htable column hcolumn
  exact relation_of_column? (hkeeps.column?_ref hdistinct hdatabase htable hcolumn)

end Catalog

/-! ## A shop with secrets -/

/-- The customer of an order is listed with three foreign keys, the last of them to a table that
is excluded. -/
def guardedShop : Catalog where
  databases := ["mysql", "shop"]
  tables := [("mysql", "user"), ("shop", "customers"), ("shop", "people"), ("shop", "secrets"),
    ("shop", "orders")]
  columns := [
    ⟨"mysql", "user", "id", "int(11)", false, "PRI", false⟩,
    ⟨"shop", "customers", "id", "int(11)", false, "PRI", false⟩,
    ⟨"shop", "people", "id", "int(11)", false, "PRI", false⟩,
    ⟨"shop", "secrets", "id", "int(11)", false, "PRI", false⟩,
    ⟨"shop", "orders", "id", "int(11)", false, "PRI", false⟩,
    ⟨"shop", "orders", "who_id", "int(11)", false, "MUL", false⟩,
    ⟨"shop", "orders", "secret_id", "int(11)", true, "MUL", false⟩]
  links := [⟨⟨"shop", "orders", "who_id"⟩, ⟨"shop", "customers", "id"⟩⟩,
    ⟨⟨"shop", "orders", "who_id"⟩, ⟨"shop", "people", "id"⟩⟩,
    ⟨⟨"shop", "orders", "secret_id"⟩, ⟨"shop", "secrets", "id"⟩⟩,
    ⟨⟨"shop", "orders", "who_id"⟩, ⟨"shop", "secrets", "id"⟩⟩]

def secretsExcluded : List AccessPolicy :=
  [{ subject := "shop.secrets", excluded := true }, { subject := "shop.orders", locked := true }]

def guardedSchema : Schema :=
  guardedShop.toSchema secretsExcluded [("shop.customers", ["clients"]), ("shop.orders.id", ["no"])]

/-- The order refers to people, and to no secret. -/
theorem orders_guarded :
    guardedShop.Distinct ∧ guardedSchema.Keeps guardedShop secretsExcluded ∧
      guardedShop.keptDatabases secretsExcluded = ["shop"] ∧
      guardedShop.keptTables secretsExcluded "shop" = ["customers", "people", "orders"] ∧
      (∀ database ∈ guardedSchema.databases, ∀ table ∈ database.tables, ∀ column ∈ table.columns,
        (column.ref = ⟨"shop", "orders", "who_id"⟩ →
          column.relation = some ⟨"shop", "people", "id"⟩) ∧
        (column.ref = ⟨"shop", "orders", "secret_id"⟩ → column.relation = none)) ∧
      guardedSchema.withoutAliases = (guardedShop.toSchema secretsExcluded []).withoutAliases := by
  have hdistinct : guardedShop.Distinct :=
    ⟨by decide +kernel, by decide +kernel, by decide +kernel⟩
  obtain ⟨hkeeps, hrelation, haliases⟩ := Catalog.toSchema_exact secretsExcluded
    [("shop.customers", ["clients"]), ("shop.orders.id", ["no"])] hdistinct
  refine ⟨hdistinct, hkeeps, by decide +kernel, by decide +kernel, ?_, haliases⟩
  intro database hdatabase table htable column hcolumn
  have hcolumnRelation := hrelation database hdatabase table htable column hcolumn
  constructor
  · intro href
    rw [hcolumnRelation, href]
    decide +kernel
  · intro href
    rw [hcolumnRelation, href]
    decide +kernel

end TableApi
