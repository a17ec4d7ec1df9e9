import TableApi.Proofs.Mounting.Trimming
import TableApi.Proofs.Expansion.Guard
import TableApi.Proofs.Faithful

/-!
# Exclusion is absence

A policy may exclude a database, a table or a column. Exclusion is enforced where roots are
chosen, where the columns of a table are listed, and three times where a relation is
followed. `Schema.pruned` is the schema that does not have the excluded subjects at all,
with no relation into one of them.

`Schema.exclusion_is_absence` says that nobody can tell the two apart: both have the same
resources, or both fail with the same fault. It follows from one square for relations
(`Schema.Valid.carries`): what a column of the pruned schema leads to is what it leads to in
the schema, pruned. What the resources of a schema show is therefore not excluded, which is
written out in `Resource.Withholds`.
-/

namespace TableApi

namespace Schema

/-- Whether a reference leads into something excluded: its database, its table or its
column. -/
def shuts (schema : Schema) (ref : ColumnRef) : Bool :=
  (schema.database? ref.database).any fun database => database.policy.excluded ||
    (database.table? ref.table).any fun table => table.policy.excluded ||
      (table.column? ref.column).any fun column => column.policy.excluded

/-- What exclusion takes away from a table: the excluded columns, and each relation into
something excluded. -/
def exclusion (schema : Schema) : Trim where
  relation := Option.filter fun ref => !schema.shuts ref
  columns columns := (columns.filter fun column => !column.policy.excluded).map fun column =>
    { column with relation := column.relation.filter fun ref => !schema.shuts ref }

/-- A database without its excluded tables. -/
def prunedDatabase (schema : Schema) (database : Database) : Database :=
  { database with
    tables := (database.tables.filter fun table => !table.policy.excluded).map
      schema.exclusion.table }

/-- The schema without its excluded databases, tables and columns and without the relations
into them. -/
def pruned (schema : Schema) : Schema where
  databases := (schema.databases.filter fun database => !database.policy.excluded).map
    schema.prunedDatabase

variable {schema : Schema} {database : Database} {table : Table}

/-! ## What the pruned schema has -/

theorem mem_databases_pruned :
    database ∈ schema.pruned.databases ↔
      ∃ kept ∈ schema.databases, kept.policy.excluded = false ∧
        schema.prunedDatabase kept = database := by
  simp [pruned, and_assoc]

/-- Nothing in the pruned schema is excluded, so it serves all of its tables. They are those
that the schema serves. -/
theorem servedTables_pruned :
    schema.pruned.servedTables = schema.servedTables.map schema.exclusion.table := by
  unfold servedTables pruned
  rw [List.filter_map, List.flatMap_map, List.map_flatMap]
  have hopen : (schema.databases.filter fun database => !database.policy.excluded).filter
        ((fun database => !database.policy.excluded) ∘ schema.prunedDatabase) =
      schema.databases.filter fun database => !database.policy.excluded :=
    List.filter_eq_self.2 fun database hdatabase => (List.mem_filter.1 hdatabase).2
  rw [hopen]
  refine congrArg (List.flatMap · _) (funext fun database => ?_)
  rw [prunedDatabase, List.filter_map]
  exact congrArg _ (List.filter_eq_self.2 fun table htable => (List.mem_filter.1 htable).2)

theorem tables_pruned :
    schema.pruned.tables = schema.servedTables.map schema.exclusion.table := by
  rw [tables, pruned, List.flatMap_map, servedTables, List.map_flatMap]
  rfl

theorem mem_servedTables :
    table ∈ schema.servedTables ↔
      ∃ database ∈ schema.databases, database.policy.excluded = false ∧
        table ∈ database.tables ∧ table.policy.excluded = false := by
  simp [servedTables, and_assoc]

theorem PlainNames.pruned (hplain : schema.PlainNames) : schema.pruned.PlainNames where
  plain database hdatabase := by
    obtain ⟨kept, hkept, -, rfl⟩ := mem_databases_pruned.1 hdatabase
    exact hplain.plain kept hkept
  distinct := by
    have hnames : schema.pruned.databases.map Database.name =
        (schema.databases.filter fun database => !database.policy.excluded).map Database.name := by
      rw [Schema.pruned, List.map_map]
      rfl
    rw [hnames]
    exact hplain.distinct.sublist (List.filter_sublist.map _)

theorem DistinctNames.pruned (hnames : schema.DistinctNames) : schema.pruned.DistinctNames where
  tables database hdatabase := by
    obtain ⟨kept, hkept, -, rfl⟩ := mem_databases_pruned.1 hdatabase
    have hsame : (schema.prunedDatabase kept).tables.map Table.name =
        (kept.tables.filter fun table => !table.policy.excluded).map Table.name := by
      rw [prunedDatabase, List.map_map]
      rfl
    rw [hsame]
    exact (hnames.tables kept hkept).sublist (List.filter_sublist.map _)
  columns table htable := by
    rw [tables_pruned, List.mem_map] at htable
    obtain ⟨found, hfound, rfl⟩ := htable
    have hsame : (schema.exclusion.table found).columns.map Column.name =
        (found.columns.filter fun column => !column.policy.excluded).map Column.name := by
      rw [Trim.table, exclusion, List.map_map]
      rfl
    rw [hsame]
    exact (hnames.columns found (servedTables_subset hfound)).sublist (List.filter_sublist.map _)

/-! ## Where relations lead -/

/-- A reference leads to a column of a table of a database. -/
structure Resolves (schema : Schema) (ref : ColumnRef) (database : Database) (table : Table)
    (column : Column) : Prop where
  foundDatabase : schema.database? ref.database = some database
  foundTable : database.table? ref.table = some table
  foundColumn : table.column? ref.column = some column

theorem column?_isSome_iff {ref : ColumnRef} :
    (schema.column? ref).isSome = true ↔
      ∃ database table column, schema.Resolves ref database table column := by
  rw [column?_eq_holder, Option.isSome_iff_exists]
  constructor
  · rintro ⟨column, h⟩
    obtain ⟨table, hholder, hcolumn⟩ := Option.bind_eq_some_iff.1 h
    obtain ⟨database, hdatabase, htable⟩ := Option.bind_eq_some_iff.1 hholder
    exact ⟨database, table, column, hdatabase, htable, hcolumn⟩
  · rintro ⟨database, table, column, hdatabase, htable, hcolumn⟩
    refine ⟨column, ?_⟩
    rw [holder?, hdatabase, Option.bind_some, htable, Option.bind_some, hcolumn]

namespace Resolves

variable {ref : ColumnRef} {column : Column}

theorem shuts_eq (h : schema.Resolves ref database table column) :
    schema.shuts ref =
      (database.policy.excluded || (table.policy.excluded || column.policy.excluded)) := by
  rw [shuts, h.foundDatabase, Option.any_some, h.foundTable, Option.any_some, h.foundColumn,
    Option.any_some]

/-- A relation is followed to where its reference leads, unless that is excluded. -/
theorem liveTarget?_eq (h : schema.Resolves ref database table column) (hplain : schema.PlainNames)
    (hvalid : schema.Valid) {source : Column} (hrelation : source.relation = some ref) :
    schema.liveTarget? source =
      .ok (if schema.shuts ref then none else some (table, ref.column)) := by
  obtain ⟨hmem, hname⟩ := mem_of_database? h.foundDatabase
  have howner : table.database = database.name :=
    (hvalid database hmem table (List.mem_of_find?_eq_some h.foundTable)).owner
  have hfound : schema.table? ref.tablePath = some table := by
    rw [ColumnRef.tablePath, table?_append (hname ▸ hplain.plain database hmem), h.foundDatabase]
    exact h.foundTable
  have hdatabase : schema.database? table.database = some database := by
    rw [howner, hname]
    exact h.foundDatabase
  rw [h.shuts_eq, ← Bool.or_assoc]
  simp only [liveTarget?, hrelation, hfound, h.foundColumn, hdatabase, Option.any_some]

/-- What a reference leads to is in the pruned schema, if none of it is excluded. -/
theorem pruned (h : schema.Resolves ref database table column) (hplain : schema.PlainNames)
    (hnames : schema.DistinctNames) (hshuts : schema.shuts ref = false) :
    schema.pruned.Resolves ref (schema.prunedDatabase database) (schema.exclusion.table table)
      (schema.exclusion.column column) := by
  rw [h.shuts_eq, Bool.or_eq_false_iff, Bool.or_eq_false_iff] at hshuts
  obtain ⟨hdatabaseOpen, htableOpen, hcolumnOpen⟩ := hshuts
  obtain ⟨hdatabase, hdatabaseName⟩ := mem_of_database? h.foundDatabase
  have htable : table ∈ database.tables := List.mem_of_find?_eq_some h.foundTable
  have hcolumn : column ∈ table.columns := List.mem_of_find?_eq_some h.foundColumn
  have htableName := List.find?_some h.foundTable
  have hcolumnName := List.find?_some h.foundColumn
  have hkept : schema.prunedDatabase database ∈ schema.pruned.databases :=
    mem_databases_pruned.2 ⟨database, hdatabase, hdatabaseOpen, rfl⟩
  have hkeptTable : schema.exclusion.table table ∈ (schema.prunedDatabase database).tables :=
    List.mem_map_of_mem (List.mem_filter.2 ⟨htable, by simp [htableOpen]⟩)
  have hkeptColumn : schema.exclusion.column column ∈ (schema.exclusion.table table).columns :=
    List.mem_map_of_mem (List.mem_filter.2 ⟨hcolumn, by simp [hcolumnOpen]⟩)
  refine ⟨?_, ?_, ?_⟩
  · rw [← hdatabaseName]
    exact hplain.pruned.database?_eq hkept
  · rw [← eq_of_beq htableName]
    exact hnames.pruned.table?_eq hkept hkeptTable
  · rw [← eq_of_beq hcolumnName]
    exact hnames.pruned.column?_eq (List.mem_flatMap.2 ⟨_, hkept, hkeptTable⟩) hkeptColumn

end Resolves

theorem relation_exclusion_eq_some {column : Column} {ref : ColumnRef} :
    (schema.exclusion.column column).relation = some ref ↔
      column.relation = some ref ∧ schema.shuts ref = false := by
  simp [Trim.column, exclusion, Option.filter_eq_some_iff]

/-- The pruned schema is as valid as the schema. -/
theorem Valid.pruned (hvalid : schema.Valid) (hplain : schema.PlainNames)
    (hnames : schema.DistinctNames) : schema.pruned.Valid := by
  intro database hdatabase table htable
  obtain ⟨kept, hkept, -, rfl⟩ := mem_databases_pruned.1 hdatabase
  obtain ⟨found, hfound, rfl⟩ := List.mem_map.1 htable
  have hin := hvalid kept hkept found (List.mem_filter.1 hfound).1
  refine ⟨hin.owner, hin.path, ?_, ?_⟩
  · intro column hcolumn
    obtain ⟨source, hsource, rfl⟩ := List.mem_map.1 hcolumn
    exact hin.columns source (List.mem_filter.1 hsource).1
  · intro column hcolumn ref hrelation
    obtain ⟨source, hsource, rfl⟩ := List.mem_map.1 hcolumn
    obtain ⟨hrelation, hshuts⟩ := relation_exclusion_eq_some.1 hrelation
    obtain ⟨_, _, _, hresolves⟩ := column?_isSome_iff.1
      (hin.relations source (List.mem_filter.1 hsource).1 ref hrelation)
    exact column?_isSome_iff.2 ⟨_, _, _, hresolves.pruned hplain hnames hshuts⟩

/-- What a relation leads to is served. -/
theorem Valid.served_of_live (hvalid : schema.Valid) (hplain : schema.PlainNames)
    {column : Column} {referenced : String}
    (hlive : schema.liveTarget? column = .ok (some (table, referenced))) :
    table ∈ schema.servedTables := by
  obtain ⟨ref, hleads, -⟩ := liveTarget?_eq_some_iff.1 hlive
  obtain ⟨database, hdatabase, hmem, -⟩ := database_of_table? hleads.found
  have hfound : schema.database? table.database = some database := by
    rw [(hvalid database hdatabase table hmem).owner]
    exact hplain.database?_eq hdatabase
  exact mem_servedTables.2
    ⟨database, hdatabase, hleads.databaseOpen database hfound, hmem, hleads.tableOpen⟩

/-- **The square of a relation.** What a column of the pruned schema leads to is what it leads
to in the schema, pruned. -/
theorem Valid.carries (hvalid : schema.Valid) (hplain : schema.PlainNames)
    (hnames : schema.DistinctNames) :
    schema.exclusion.Carries schema schema.pruned (· ∈ schema.servedTables) where
  columns table _ := by
    show ((table.visibleColumns.map schema.exclusion.column).filter fun column =>
      !column.policy.excluded) = _
    rw [List.filter_map]
    exact congrArg _ (List.filter_eq_self.2 fun column hcolumn => (List.mem_filter.1 hcolumn).2)
  live table htable column hcolumn := by
    cases hrelation : column.relation with
    | none =>
      have hnone : (schema.exclusion.column column).relation = none := by
        rw [Trim.column, hrelation]
        rfl
      rw [liveTarget?, liveTarget?, hrelation, hnone]
      rfl
    | some ref =>
      obtain ⟨database, hdatabase, -, hmem, -⟩ := mem_servedTables.1 htable
      obtain ⟨_, found, _, hresolves⟩ := column?_isSome_iff.1
        ((hvalid database hdatabase table hmem).relations column (List.mem_of_mem_filter hcolumn)
          ref hrelation)
      rw [hresolves.liveTarget?_eq hplain hvalid hrelation]
      cases hshuts : schema.shuts ref with
      | true =>
        have hnone : (schema.exclusion.column column).relation = none := by
          simp [Trim.column, exclusion, hrelation, Option.filter, hshuts]
        rw [liveTarget?, hnone]
        rfl
      | false =>
        have hpruned := hresolves.pruned hplain hnames hshuts
        have hkept : schema.pruned.shuts ref = false :=
          hpruned.shuts_eq.trans (hresolves.shuts_eq.symm.trans hshuts)
        rw [hpruned.liveTarget?_eq hplain.pruned (hvalid.pruned hplain hnames)
          (relation_exclusion_eq_some.2 ⟨hrelation, hshuts⟩), hkept]
        rfl
  closed _ _ _ _ found _ hlive := hvalid.served_of_live hplain hlive

/-- **Exclusion is absence.** A valid schema has the resources of its pruned schema, or both
fail with the same fault. -/
theorem Valid.views_pruned (hvalid : schema.Valid) (hplain : schema.PlainNames)
    (hnames : schema.DistinctNames) :
    schema.pruned.resources.map (List.map Resource.view) =
      schema.resources.map (List.map Resource.view) := by
  have hprunedValid := hvalid.pruned hplain hnames
  have hfound : ∀ table ∈ schema.servedTables, (schema.pruned.table? table.qualifiedName).isSome =
      (schema.table? table.qualifiedName).isSome := by
    intro table htable
    have hpruned : schema.exclusion.table table ∈ schema.pruned.tables := by
      rw [tables_pruned]
      exact List.mem_map_of_mem htable
    have hsome := hplain.pruned.table?_isSome hprunedValid hpruned
    exact hsome.trans (hplain.table?_isSome hvalid (servedTables_subset htable)).symm
  rw [resources, resources, validate_ok_iff.2 hvalid, validate_ok_iff.2 hprunedValid]
  show (schema.pruned.resourcesOf schema.pruned.servedTables).map _ =
    (schema.resourcesOf schema.servedTables).map _
  rw [servedTables_pruned,
    (hvalid.carries hplain hnames).resourcesOf_eq (fun _ htable => htable) hfound]
  cases schema.resourcesOf schema.servedTables with
  | error fault => rfl
  | ok resources =>
    show Except.ok _ = Except.ok _
    rw [List.map_map]
    exact congrArg Except.ok (List.map_congr_left fun resource _ =>
      schema.exclusion.view_resource resource)

end Schema

/-! ## What a resource withholds -/

/-- Each name is that of one of the columns, behind some lead. -/
def NamedAfter (columns : List Column) (names : List String) : Prop :=
  ∀ name ∈ names, ∃ column ∈ columns, ∃ lead, name = lead ++ column.displayName.primary

/-- Nothing excluded is part of a resource: not its tables and their databases, not the
columns that can be read and written, in the root or below, not the ends of a join, and not
what a new row must have. -/
structure Resource.Withholds (schema : Schema) (resource : Resource) : Prop where
  tables : ∀ table ∈ resource.tables, table.policy.excluded = false ∧
    ∀ database ∈ schema.databases, database.name = table.database →
      database.policy.excluded = false
  columns : ∀ part ∈ resource.submodels, ∀ column ∈ part.2.columns,
    column.policy.excluded = false
  joins : ∀ k < resource.joins.length, ∃ j source, resource.Follows schema k j source
  required : List.Forall₂ (fun table names => NamedAfter table.visibleColumns names)
    resource.tables resource.required

namespace Schema

variable {schema : Schema}

/-- A mounted table shows none but its visible columns. -/
theorem Mounts.open_of_mem_columns {table : Table} {mounted : Mounted}
    (h : schema.Mounts table mounted) {column : Column}
    (hcolumn : column ∈ (Slot.shape mounted.entries).columns) :
    column.policy.excluded = false := by
  obtain ⟨hops, path, index, lead, h⟩ := h
  obtain ⟨-, -, _, grown, -, hgrown, rfl⟩ := mountTable_ok h
  obtain ⟨source, hsource, rfl⟩ := (mem_columns_mountColumns hgrown).1 hcolumn
  obtain ⟨hvisible, -⟩ := mem_written (List.mem_reverse.1 (Entries.mem_of_get? hsource))
  have hopen := (List.mem_filter.1 hvisible).2
  rwa [Bool.not_eq_true'] at hopen

/-- What a new row needs, in each table of an expansion, are visible columns of the table. -/
theorem Expands.required_grown {columns : List Column} {expansion : Expansion}
    (h : schema.Expands columns expansion) {owner next : Nat} {path : List Column} :
    NamedAfter columns (expansion.grown owner next path).required ∧
      List.Forall₂ (fun table names => NamedAfter table.visibleColumns names)
        ((expansion.hops owner next).map fun hop => hop.placed.table)
        (expansion.grown owner next path).requiredBelow := by
  induction h generalizing owner next path with
  | nil => exact ⟨fun name hname => absurd hname List.not_mem_nil, .nil⟩
  | @plain source rest others hlive hrest ih =>
    refine ⟨fun name hname => ?_, ih.2⟩
    have hmem : name = leadOf path ++ source.displayName.primary ∨
        name ∈ (others.grown owner next path).required := by
      simp only [Expansion.grown] at hname
      split at hname
      · exact .inr hname
      · exact List.mem_cons.1 hname
    rcases hmem with rfl | hlater
    · exact ⟨source, List.mem_cons_self, leadOf path, rfl⟩
    · obtain ⟨column, hcolumn, hlead⟩ := ih.1 name hlater
      exact ⟨column, List.mem_cons_of_mem _ hcolumn, hlead⟩
  | @follow source rest table referenced inner others hlive hinner hrest ihInner ihRest =>
    constructor
    · intro name hname
      obtain ⟨column, hcolumn, hlead⟩ := ihRest.1 name hname
      exact ⟨column, List.mem_cons_of_mem _ hcolumn, hlead⟩
    · rw [Expansion.hops, List.cons_append, List.map_cons, List.map_append]
      exact .cons ihInner.1 (List.rel_append ihInner.2 ihRest.2)

end Schema

namespace Resource

variable {schema : Schema} {root : Table} {resource : Resource}

/-- A resource over a table that is served withholds everything that is excluded. -/
theorem withholds_of_compile (hvalid : schema.Valid) (hplain : schema.PlainNames)
    (hroot : root ∈ schema.servedTables) (hcompile : compile schema root = .ok resource) :
    resource.Withholds schema := by
  obtain ⟨expansion, hexpands, hmounted, -⟩ := mounted_of_compile hcompile
  have hserved : ∀ table ∈ schema.servedTables, table.policy.excluded = false ∧
      ∀ database ∈ schema.databases, database.name = table.database →
        database.policy.excluded = false := by
    intro table htable
    obtain ⟨database, hdatabase, hopen, hmem, htableOpen⟩ := Schema.mem_servedTables.1 htable
    refine ⟨htableOpen, fun other hother hname => ?_⟩
    rw [(hvalid database hdatabase table hmem).owner] at hname
    rwa [List.inj_on_of_nodup_map hplain.distinct hother hdatabase hname]
  refine ⟨fun table htable => ?_, fun part hpart column hcolumn => ?_, fun k hk => ?_, ?_⟩
  · rw [tables_eq hmounted] at htable
    rcases List.mem_cons.1 htable with rfl | htable
    · exact hserved root hroot
    · obtain ⟨hop, hhop, rfl⟩ := List.mem_map.1 htable
      exact hserved hop.table (hvalid.served_of_live hplain
        (hexpands.mem_hops (List.Subset.refl _) hhop).1)
  · have hmount := mountTable_of_compile hcompile
    rcases List.mem_cons.1 hpart with rfl | hpart
    · exact Schema.Mounts.open_of_mem_columns ⟨_, _, _, _, hmount⟩ hcolumn
    · obtain ⟨_, below, _, -, hbelow, -, hinner⟩ := Schema.mounts_of_place hmount hpart
      rw [hinner] at hcolumn
      exact hbelow.open_of_mem_columns hcolumn
  · rw [joins_eq hmounted, List.length_map] at hk
    exact ⟨_, _, (follows_hop hmounted hexpands (List.getElem?_eq_getElem hk)).2⟩
  · obtain ⟨hown, hbelow⟩ := hexpands.required_grown
    rw [tables_eq hmounted, hmounted]
    exact .cons hown hbelow

end Resource

/-- **Exclusion is absence.** Take a valid schema whose names are plain and distinct, and take
out its excluded databases, tables and columns and the relations into them. Then its
resources are the same: the same fault, or the same list, with the same names, tables,
aliases, joins, columns, required names, types and statements. And nothing excluded is part
of any of them, however relations may lead to it. -/
theorem Schema.exclusion_is_absence {schema : Schema} (hvalid : schema.validate = .ok ())
    (hplain : schema.PlainNames) (hnames : schema.DistinctNames) :
    schema.pruned.resources.map (List.map Resource.view) =
        schema.resources.map (List.map Resource.view) ∧
      ∀ resources, schema.resources = .ok resources → ∀ resource ∈ resources,
        resource.Withholds schema := by
  rw [validate_ok_iff] at hvalid
  refine ⟨hvalid.views_pruned hplain hnames, fun resources h resource hresource => ?_⟩
  obtain ⟨root, hroot, hcompile⟩ := compile_of_mem_resources h hresource
  exact Resource.withholds_of_compile hvalid hplain hroot hcompile

/-! ## A shop with secrets -/

/-- The policy that excludes a subject. -/
def shut (subject : String) : AccessPolicy :=
  { AccessPolicy.openTo subject with excluded := true }

/-- A customer has a secret. -/
def secretCustomers : Table :=
  .ofColumns "shop" "customers" [
    { Column.ofType "shop" "customers" "id" "int(11)" with keyRole := .primary },
    .ofType "shop" "customers" "name" "varchar(64)",
    { Column.ofType "shop" "customers" "secret" "varchar(64)" with
      policy := shut "shop.customers.secret" }]

/-- An order leads to its customer, and to an audit, a clerk and a secret. -/
def secretOrders : Table :=
  .ofColumns "shop" "orders" [
    { Column.ofType "shop" "orders" "id" "int(11)" with keyRole := .primary },
    (Column.ofType "shop" "orders" "customer_id" "int(11)").references ⟨"shop", "customers", "id"⟩,
    (Column.ofType "shop" "orders" "audit_id" "int(11)").references ⟨"shop", "audits", "id"⟩,
    (Column.ofType "shop" "orders" "clerk_id" "int(11)").references ⟨"staff", "clerks", "id"⟩,
    (Column.ofType "shop" "orders" "token" "varchar(64)").references
      ⟨"shop", "customers", "secret"⟩]

/-- The audits of the shop and the database of the staff are excluded. -/
def secretShop : Schema where
  databases := [
    { name := "shop", policy := .openTo "shop"
      tables := [secretCustomers, secretOrders,
        { Table.ofColumns "shop" "audits" [.ofType "shop" "audits" "id" "int(11)"] with
          policy := shut "shop.audits" }] },
    { name := "staff", policy := shut "staff"
      tables := [.ofColumns "staff" "clerks" [.ofType "staff" "clerks" "id" "int(11)"]] }]

def secretResources : List Resource :=
  secretShop.resources.toOption.get (by decide +kernel)

/-- Without the audits, the staff and the secrets the shop has the same resources. An order
is joined with its customer only, and the other relations are plain columns. -/
theorem secrets_withheld :
    secretShop.validate = .ok () ∧ secretShop.PlainNames ∧ secretShop.DistinctNames ∧
      secretShop.pruned.tables.map Table.qualifiedName = ["shop.customers", "shop.orders"] ∧
      secretShop.resources = .ok secretResources ∧
      (secretResources.map fun resource => resource.columns.map (·.displayName.primary)) =
        [["id", "name"], ["id", "customer_id_id", "customer_id_name", "audit_id", "clerk_id",
          "token"]] ∧
      secretShop.pruned.resources.map (List.map Resource.view) =
        secretShop.resources.map (List.map Resource.view) ∧
      ∀ resource ∈ secretResources, resource.Withholds secretShop := by
  have hvalid : secretShop.validate = .ok () := by decide +kernel
  have hplain : secretShop.PlainNames := by decide +kernel
  have hnames : secretShop.DistinctNames := by decide +kernel
  have hresources : secretShop.resources = .ok secretResources := eq_ok_get _
  obtain ⟨hviews, hwithholds⟩ := Schema.exclusion_is_absence hvalid hplain hnames
  exact ⟨hvalid, hplain, hnames, by decide +kernel, hresources, by decide +kernel, hviews,
    hwithholds _ hresources⟩

end TableApi
