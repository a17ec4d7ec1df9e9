import TableApi.Proofs.Introspection.Aliases
import TableApi.Proofs.Validation

/-!
# Introspected schemas are valid

Whether a relation leads to a column depends on the names of databases, tables and columns
alone (`Schema.isSome_column?`), and nothing that introspection does to the bare schema of
a catalog changes a name (`Catalog.layout_toSchema`). So a relation that is set because its
target is there stays valid, whatever is set and named after it, and the schema of every
catalog is valid: `Catalog.valid_toSchema`.
-/

namespace TableApi

/-- A change that a view of the items does not show is not shown in the list. -/
theorem map_updateFirst {α β : Type} {fits : α → Bool} {change : α → α} {view : α → β}
    (hview : ∀ item, view (change item) = view item) (items : List α) :
    (updateFirst fits change items).map view = items.map view := by
  induction items with
  | nil => rfl
  | cons first rest ih =>
    rw [updateFirst]
    split
    · rw [List.map_cons, List.map_cons, hview]
    · rw [List.map_cons, List.map_cons, ih]

/-! ## The names of a schema -/

/-- The name of a table and those of its columns. -/
def Table.layout (table : Table) : String × List String :=
  (table.name, table.columns.map Column.name)

/-- The name of a database and its tables by their names. -/
def Database.layout (database : Database) : String × List (String × List String) :=
  (database.name, database.tables.map Table.layout)

/-- A schema by its names. -/
def Schema.layout (schema : Schema) : List (String × List (String × List String)) :=
  schema.databases.map Database.layout

namespace Schema

variable {schema : Schema}

theorem layout_updateTable {database name : String} {change : Table → Table}
    (hchange : ∀ table, (change table).layout = table.layout) :
    (schema.updateTable database name change).layout = schema.layout := by
  refine map_updateFirst (fun found => ?_) schema.databases
  rw [Database.layout, Database.layout, map_updateFirst hchange]

theorem layout_updateColumn {ref : ColumnRef} {change : Column → Column}
    (hchange : ∀ column, (change column).name = column.name) :
    (schema.updateColumn ref change).layout = schema.layout := by
  refine layout_updateTable fun table => ?_
  rw [Table.layout, Table.layout, map_updateFirst hchange]

theorem layout_link (entry : CatalogLink) : (schema.link entry).layout = schema.layout := by
  unfold link
  split
  · rfl
  · exact layout_updateColumn fun _ => rfl

theorem layout_addAliases (path : String) (aliases : List String) :
    (schema.addAliases path aliases).layout = schema.layout := by
  unfold addAliases
  split
  · exact layout_updateTable fun _ => rfl
  · exact layout_updateColumn fun _ => rfl
  · rfl

/-- The layout of the database of a name. -/
theorem map_layout_database? (name : String) :
    (schema.database? name).map Database.layout =
      schema.layout.find? fun layout => layout.1 == name := by
  rw [layout, List.find?_map]
  rfl

theorem map_layout_table? (database : Database) (name : String) :
    (database.table? name).map Table.layout =
      database.layout.2.find? fun layout => layout.1 == name := by
  rw [Database.layout, List.find?_map]
  rfl

/-- Whether a column is found can be told from the names. -/
theorem isSome_column? (schema : Schema) (ref : ColumnRef) :
    (schema.column? ref).isSome =
      (schema.layout.find? fun layout => layout.1 == ref.database).any fun database =>
        (database.2.find? fun layout => layout.1 == ref.table).any fun table =>
          table.2.any fun name => name == ref.column := by
  rw [← map_layout_database?, column?_eq_holder, holder?]
  cases schema.database? ref.database with
  | none => rfl
  | some database =>
    show ((database.table? ref.table).bind fun table => table.column? ref.column).isSome =
      (database.layout.2.find? fun layout => layout.1 == ref.table).any fun table =>
          table.2.any fun name => name == ref.column
    rw [← map_layout_table?]
    cases database.table? ref.table with
    | none => rfl
    | some table =>
      show (table.columns.find? fun column => column.name == ref.column).isSome =
        (table.columns.map Column.name).any fun name => name == ref.column
      rw [Bool.eq_iff_iff, List.find?_isSome, List.any_map, List.any_eq_true]
      rfl

/-! ## Steps that keep a schema valid -/

/-- The columns of a table name it as their owner, and their relations lead to columns. -/
structure Settled (schema : Schema) (database : String) (table : Table) : Prop where
  owner : ∀ column ∈ table.columns, column.database = database ∧ column.table = table.name
  relation : ∀ column ∈ table.columns, ∀ target, column.relation = some target →
    (schema.column? target).isSome = true

/-- Relations that lead to columns do so in every schema of the same names. -/
theorem Settled.of_layout {other : Schema} (hlayout : other.layout = schema.layout)
    {database : String} {table : Table} (h : schema.Settled database table) :
    other.Settled database table := by
  refine ⟨h.owner, fun column hcolumn target htarget => ?_⟩
  rw [isSome_column?, hlayout, ← isSome_column?]
  exact h.relation column hcolumn target htarget

/-- A change of a column may set a relation to a column that is there. -/
theorem settled_updateColumn (h : schema.Holds schema.Settled) {ref : ColumnRef}
    {change : Column → Column} (hname : ∀ column, (change column).name = column.name)
    (howner : ∀ column, (change column).database = column.database ∧
      (change column).table = column.table)
    (hrelation : ∀ column target, (change column).relation = some target →
      column.relation = some target ∨ (schema.column? target).isSome = true) :
    (schema.updateColumn ref change).Holds (schema.updateColumn ref change).Settled := by
  have hkept : (schema.updateColumn ref change).Holds schema.Settled := by
    refine h.updateTable fun table hsettled _ => ⟨fun column hcolumn => ?_, ?_⟩
    · rcases mem_updateFirst hcolumn with hcolumn | ⟨old, hold, -, rfl⟩
      · exact hsettled.owner column hcolumn
      · rw [(howner old).1, (howner old).2]
        exact hsettled.owner old hold
    · intro column hcolumn target htarget
      rcases mem_updateFirst hcolumn with hcolumn | ⟨old, hold, -, rfl⟩
      · exact hsettled.relation column hcolumn target htarget
      · rcases hrelation old target htarget with hbefore | hfound
        · exact hsettled.relation old hold target hbefore
        · exact hfound
  intro database hdatabase table htable
  exact (hkept database hdatabase table htable).of_layout (layout_updateColumn hname)

theorem settled_link (h : schema.Holds schema.Settled) (entry : CatalogLink) :
    (schema.link entry).Holds (schema.link entry).Settled := by
  unfold link
  split
  · exact h
  · next hfound =>
    refine settled_updateColumn h (fun _ => rfl) (fun _ => ⟨rfl, rfl⟩) fun column target htarget => ?_
    obtain rfl : entry.target = target := Option.some.inj htarget
    exact .inr (by simpa [Option.isSome_iff_ne_none] using hfound)

/-- A change of a table may change all but its name and its columns. -/
theorem settled_updateTable (h : schema.Holds schema.Settled) {database name : String}
    {change : Table → Table} (hname : ∀ table, (change table).name = table.name)
    (hcolumns : ∀ table, (change table).columns = table.columns) :
    (schema.updateTable database name change).Holds
      (schema.updateTable database name change).Settled := by
  have hkept : (schema.updateTable database name change).Holds schema.Settled := by
    refine h.updateTable fun table hsettled _ => ⟨?_, ?_⟩
    · rw [hname, hcolumns]
      exact hsettled.owner
    · rw [hcolumns]
      exact hsettled.relation
  intro found hfound table htable
  refine (hkept found hfound table htable).of_layout (layout_updateTable fun other => ?_)
  rw [Table.layout, Table.layout, hname, hcolumns]

theorem settled_addAliases (h : schema.Holds schema.Settled) (path : String)
    (aliases : List String) :
    (schema.addAliases path aliases).Holds (schema.addAliases path aliases).Settled := by
  unfold addAliases
  split
  · exact settled_updateTable h (fun _ => rfl) fun _ => rfl
  · exact settled_updateColumn h (fun _ => rfl) (fun _ => ⟨rfl, rfl⟩) fun _ _ htarget => .inl htarget
  · exact h

end Schema

/-! ## The schema of a catalog -/

namespace Catalog

variable (catalog : Catalog) (policies : List AccessPolicy)

/-- What the policies leave of a catalog, before relations and aliases are set. -/
def bareSchema : Schema :=
  ⟨catalog.databases.filterMap (catalog.toDatabase? policies)⟩

/-- Relations and aliases change no name. -/
theorem layout_toSchema (aliases : Entries (List String)) :
    (catalog.toSchema policies aliases).layout = (catalog.bareSchema policies).layout :=
  toSchema_induction (motive := fun schema => schema.layout = (catalog.bareSchema policies).layout)
    catalog policies rfl (fun _ entry h => (Schema.layout_link entry).trans h)
    (fun _ entry _ h => (Schema.layout_addAliases entry.1 entry.2).trans h)

/-- A column of the bare schema is owned by the table of its row, and has no relation. -/
theorem bare_toTable? {database name : String} {table : Table}
    (h : catalog.toTable? policies database name = some table) {column : Column}
    (hcolumn : column ∈ table.columns) :
    (column.database = database ∧ column.table = name) ∧ column.relation = none := by
  unfold toTable? at h
  simp only at h
  split at h
  · cases h
  · cases h
    obtain ⟨row, hrow, hmade⟩ := List.mem_filterMap.1 hcolumn
    have howner := (List.mem_filter.1 hrow).2
    rw [Bool.and_eq_true, beq_iff_eq, beq_iff_eq] at howner
    unfold toColumn? at hmade
    simp only at hmade
    split at hmade
    · cases hmade
    · cases hmade
      exact ⟨howner, rfl⟩

theorem settled_toTable? (schema : Schema) {database name : String} {table : Table}
    (h : catalog.toTable? policies database name = some table) :
    schema.Settled database table := by
  have hname : table.name = name := by
    unfold toTable? at h
    simp only at h
    split at h <;> cases h
    rfl
  refine ⟨fun column hcolumn => ?_, fun column hcolumn target htarget => ?_⟩
  · rw [hname]
    exact (bare_toTable? catalog policies h hcolumn).1
  · rw [(bare_toTable? catalog policies h hcolumn).2] at htarget
    cases htarget

theorem settled_toSchema (aliases : Entries (List String)) :
    (catalog.toSchema policies aliases).Holds (catalog.toSchema policies aliases).Settled :=
  toSchema_induction (motive := fun schema => schema.Holds schema.Settled) catalog policies
    (holds_bare catalog policies (settled_toTable? catalog policies _))
    (fun _ entry h => Schema.settled_link h entry)
    (fun _ entry _ h => Schema.settled_addAliases h entry.1 entry.2)

/-- The schema of a catalog is valid. -/
theorem valid_toSchema (aliases : Entries (List String)) :
    (catalog.toSchema policies aliases).Valid := by
  intro database hdatabase table htable
  have hnamed := namedBy_toSchema catalog policies aliases database hdatabase table htable
  have hsettled := settled_toSchema catalog policies aliases database hdatabase table htable
  exact ⟨hnamed.owner, hnamed.path, hsettled.owner, hsettled.relation⟩

/-! ## Finding the tables of a catalog -/

variable {catalog policies} {aliases : Entries (List String)}

/-- A database of the schema has the names of what the catalog gives for its name. -/
theorem toDatabase?_of_mem {database : Database}
    (h : database ∈ (catalog.toSchema policies aliases).databases) :
    database.name ∈ catalog.databases ∧
      ∃ made, catalog.toDatabase? policies database.name = some made ∧
        made.layout = database.layout := by
  have hlayout : database.layout ∈ (catalog.bareSchema policies).layout := by
    rw [← layout_toSchema catalog policies aliases]
    exact List.mem_map_of_mem h
  obtain ⟨made, hmade, heq⟩ := List.mem_map.1 hlayout
  obtain ⟨name, hname, htoDatabase⟩ := List.mem_filterMap.1 hmade
  have hmadeName : made.name = name := by
    unfold toDatabase? at htoDatabase
    simp only at htoDatabase
    split at htoDatabase
    · cases htoDatabase
    · cases htoDatabase
      rfl
  obtain rfl : database.name = name := (congrArg Prod.fst heq).symm.trans hmadeName
  exact ⟨hname, made, htoDatabase, heq⟩

/-- No database of the schema has a dot in its name when none of the catalog has. -/
theorem plain_of_mem (hplain : ∀ name ∈ catalog.databases, '.' ∉ name.toList)
    {database : Database} (h : database ∈ (catalog.toSchema policies aliases).databases) :
    '.' ∉ database.name.toList :=
  hplain _ (toDatabase?_of_mem h).1

/-- The path of every table is found when no database has a dot in its name. A catalog may
list a name twice: then the table is found in the first database of the name, which has the
same tables. -/
theorem isSome_table? (hplain : ∀ name ∈ catalog.databases, '.' ∉ name.toList) {table : Table}
    (htable : table ∈ (catalog.toSchema policies aliases).tables) :
    ((catalog.toSchema policies aliases).table? table.qualifiedName).isSome = true := by
  obtain ⟨database, hdatabase, htable⟩ := List.mem_flatMap.1 htable
  have hvalid := valid_toSchema catalog policies aliases database hdatabase table htable
  have hfirst : ((catalog.toSchema policies aliases).database? database.name).isSome = true :=
    List.find?_isSome.2 ⟨database, hdatabase, beq_self_eq_true _⟩
  obtain ⟨first, hfirst⟩ := Option.isSome_iff_exists.1 hfirst
  obtain ⟨hmem, hname⟩ := Schema.mem_of_database? hfirst
  have hsame : first.layout = database.layout := by
    obtain ⟨-, made, hmade, heq⟩ := toDatabase?_of_mem hmem
    obtain ⟨-, made', hmade', heq'⟩ := toDatabase?_of_mem hdatabase
    rw [hname, hmade'] at hmade
    obtain rfl : made' = made := Option.some.inj hmade
    exact heq.symm.trans heq'
  have htwin : table.layout ∈ first.layout.2 := by
    rw [hsame]
    exact List.mem_map_of_mem htable
  obtain ⟨twin, htwin, heq⟩ := List.mem_map.1 htwin
  rw [hvalid.path, Schema.table?_append (plain_of_mem hplain hdatabase), hfirst]
  show (first.tables.find? fun found => found.name == table.name).isSome = true
  exact List.find?_isSome.2 ⟨twin, htwin, beq_iff_eq.2 (congrArg Prod.fst heq)⟩

end Catalog

end TableApi
