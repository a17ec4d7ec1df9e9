import TableApi.Proofs.Introspection.Validity

/-!
# What introspection keeps of a catalog

The databases, tables and columns of an introspected schema are those that the catalog
lists and the policies leave in, in the catalog's order (`Catalog.keeps_toSchema`). A
column's role among the keys goes with its relation: setting relations and adding aliases
keep all of this.
-/

namespace TableApi

namespace Catalog

variable (catalog : Catalog) (policies : List AccessPolicy)

/-- The databases that are neither the server's own nor excluded. -/
def keptDatabases : List String :=
  catalog.databases.filter fun name =>
    !(systemDatabases.contains name || (AccessPolicy.forSubject name policies).excluded)

/-- The tables listed for a database that are not excluded. -/
def keptTables (database : String) : List String :=
  ((catalog.tables.filter fun row => row.1 == database).map Prod.snd).filter fun name =>
    !(AccessPolicy.forSubject (database ++ "." ++ name) policies).excluded

/-- The columns listed for a table that are not excluded. -/
def keptColumns (database table : String) : List CatalogColumn :=
  (catalog.rowsOf database table).filter fun row => !row.excludedBy policies

variable {catalog policies} in
theorem owner_of_mem_keptColumns {database table : String} {row : CatalogColumn}
    (h : row ∈ catalog.keptColumns policies database table) :
    row.database = database ∧ row.table = table := by
  obtain ⟨hrow, -⟩ := List.mem_filter.1 h
  simpa using (List.mem_filter.1 hrow).2

/-- A column is left in, and so are its table and its database. -/
def Survives (ref : ColumnRef) : Prop :=
  ref.database ∈ catalog.keptDatabases policies ∧
    ref.table ∈ catalog.keptTables policies ref.database ∧
    ∃ row ∈ catalog.keptColumns policies ref.database ref.table, row.name = ref.column

instance (ref : ColumnRef) : Decidable (catalog.Survives policies ref) :=
  inferInstanceAs (Decidable (_ ∧ _ ∧ _))

end Catalog

/-! ## A schema as the catalog lists it -/

/-- A column is what its row says: its key is primary if the row's is, else foreign if the
column has a relation, else what the row says. -/
structure Column.Keeps (policies : List AccessPolicy) (column : Column) (row : CatalogColumn) :
    Prop where
  name : column.name = row.name
  table : column.table = row.table
  database : column.database = row.database
  path : column.qualifiedName = row.path
  shown : column.displayName.primary = row.name
  unplaced : column.storageAlias = none
  typeTag : column.typeTag = row.typeTag
  nullable : column.nullable = row.nullable
  hasDefault : column.hasDefault = row.hasDefault
  policy : column.policy = .forSubject row.path policies
  primary : column.keyRole = .primary ↔ row.key = "PRI"
  foreign : row.key ≠ "PRI" → (column.keyRole = .foreign ↔ column.relation.isSome = true)
  worded : row.key ≠ "PRI" → column.relation = none → column.keyRole = .ofCatalog row.key

structure Table.Keeps (catalog : Catalog) (policies : List AccessPolicy) (owner : String)
    (table : Table) (listed : String) : Prop where
  name : table.name = listed
  database : table.database = owner
  path : table.qualifiedName = owner ++ "." ++ listed
  shown : table.displayName.primary = owner ++ "." ++ listed
  unplaced : table.storageAlias = none
  policy : table.policy = .forSubject (owner ++ "." ++ listed) policies
  columns : List.Forall₂ (Column.Keeps policies) table.columns
    (catalog.keptColumns policies owner listed)

structure Database.Keeps (catalog : Catalog) (policies : List AccessPolicy) (database : Database)
    (listed : String) : Prop where
  name : database.name = listed
  policy : database.policy = .forSubject listed policies
  tables : List.Forall₂ (Table.Keeps catalog policies listed) database.tables
    (catalog.keptTables policies listed)

/-- A schema is what the policies leave of a catalog, in the catalog's order. -/
def Schema.Keeps (catalog : Catalog) (policies : List AccessPolicy) (schema : Schema) : Prop :=
  List.Forall₂ (Database.Keeps catalog policies) schema.databases (catalog.keptDatabases policies)

namespace Column.Keeps

variable {policies : List AccessPolicy} {column : Column} {row : CatalogColumn}

/-- A key that is set by a relation is foreign unless it is primary. -/
theorem references (h : column.Keeps policies row) (target : ColumnRef) :
    (column.references target).Keeps policies row := by
  refine { h with primary := ?_, foreign := fun hkey => ?_, worded := fun _ hnone => nomatch hnone }
  · by_cases hprimary : column.keyRole = .primary
    · simp [Column.references, hprimary, h.primary.1 hprimary]
    · simp [Column.references, hprimary, mt h.primary.2 hprimary]
  · simp [Column.references, mt h.primary.1 hkey]

theorem addAliases (h : column.Keeps policies row) (aliases : List String) :
    Column.Keeps policies { column with displayName := column.displayName.addAliases aliases } row :=
  { h with shown := (Name.primary_addAliases _ _).trans h.shown }

/-- A column is made as its row says. -/
theorem toColumn? (row : CatalogColumn) (hkept : (!row.excludedBy policies) = true) :
    ∃ column, Catalog.toColumn? policies row = some column ∧ column.Keeps policies row := by
  have hopen : row.excludedBy policies = false := by simpa using hkept
  refine ⟨_, if_neg (ne_true_of_eq_false hopen), rfl, rfl, rfl, rfl, rfl, rfl, rfl, rfl, rfl, rfl,
    ?_, fun _ => ?_, fun _ _ => rfl⟩
  · exact KeyRole.ofCatalog_eq_primary_iff
  · exact iff_of_false (KeyRole.ofCatalog_ne_foreign row.key) Bool.false_ne_true

end Column.Keeps

section Listed

variable {α β : Type} {r : α → β → Prop} {items : List α} {others : List β} (name : α → String)
  (key : β → String)

/-- What is found by its name is listed. -/
theorem listed_of_find? (h : List.Forall₂ r items others)
    (hname : ∀ item other, r item other → name item = key other) {wanted : String} {item : α}
    (hfound : items.find? (fun item => name item == wanted) = some item) :
    ∃ other ∈ others, key other = wanted ∧ r item other := by
  obtain ⟨other, hother, hr⟩ := exists_of_forall₂_left h (List.mem_of_find?_eq_some hfound)
  refine ⟨other, hother, ?_, hr⟩
  rw [← hname item other hr]
  simpa using List.find?_some hfound

/-- What is listed is found by its name. -/
theorem isSome_find?_of_listed (h : List.Forall₂ r items others)
    (hname : ∀ item other, r item other → name item = key other) {other : β}
    (hother : other ∈ others) :
    (items.find? fun item => name item == key other).isSome = true := by
  obtain ⟨item, hitem, hr⟩ := exists_of_forall₂_right h hother
  exact List.find?_isSome.2 ⟨item, hitem, beq_iff_eq.2 (hname item other hr)⟩

end Listed

namespace Schema.Keeps

variable {schema : Schema} {catalog : Catalog} {policies : List AccessPolicy}

theorem updateTable (h : schema.Keeps catalog policies) {database name : String}
    {change : Table → Table} (hchange : ∀ owner table listed,
      Table.Keeps catalog policies owner table listed →
        Table.Keeps catalog policies owner (change table) listed) :
    (schema.updateTable database name change).Keeps catalog policies :=
  forall₂_updateFirst (fun _ listed hkeeps =>
    { hkeeps with tables := forall₂_updateFirst (hchange listed) hkeeps.tables }) h

theorem updateColumn (h : schema.Keeps catalog policies) {ref : ColumnRef}
    {change : Column → Column}
    (hchange : ∀ column row, Column.Keeps policies column row →
      Column.Keeps policies (change column) row) :
    (schema.updateColumn ref change).Keeps catalog policies :=
  h.updateTable fun _ _ _ hkeeps =>
    { hkeeps with columns := forall₂_updateFirst hchange hkeeps.columns }

theorem link (h : schema.Keeps catalog policies) (entry : CatalogLink) :
    (schema.link entry).Keeps catalog policies := by
  unfold Schema.link
  split
  · exact h
  · exact h.updateColumn fun _ _ hkeeps => hkeeps.references entry.target

theorem addAliases (h : schema.Keeps catalog policies) (path : String) (aliases : List String) :
    (schema.addAliases path aliases).Keeps catalog policies := by
  unfold Schema.addAliases
  split
  · exact h.updateTable fun _ _ _ hkeeps =>
      { hkeeps with shown := (Name.primary_addAliases _ _).trans hkeeps.shown }
  · exact h.updateColumn fun _ _ hkeeps => hkeeps.addAliases aliases
  · exact h

theorem listed_of_database? (h : schema.Keeps catalog policies) {name : String}
    {database : Database} (hfound : schema.database? name = some database) :
    name ∈ catalog.keptDatabases policies ∧ database.Keeps catalog policies name := by
  obtain ⟨_, hlisted, rfl, hkeeps⟩ :=
    listed_of_find? Database.name id h (fun _ _ hkeeps => hkeeps.name) hfound
  exact ⟨hlisted, hkeeps⟩

theorem listed_of_table? {database : Database} {owner name : String} {table : Table}
    (h : database.Keeps catalog policies owner) (hfound : database.table? name = some table) :
    name ∈ catalog.keptTables policies owner ∧ Table.Keeps catalog policies owner table name := by
  obtain ⟨_, hlisted, rfl, hkeeps⟩ :=
    listed_of_find? Table.name id h.tables (fun _ _ hkeeps => hkeeps.name) hfound
  exact ⟨hlisted, hkeeps⟩

/-- A column is found exactly if it survives. A database or a table that is listed twice is
found where it stands first, and has the same columns there. -/
theorem isSome_column? (h : schema.Keeps catalog policies) (ref : ColumnRef) :
    (schema.column? ref).isSome = true ↔ catalog.Survives policies ref := by
  constructor
  · intro hsome
    obtain ⟨column, hcolumn⟩ := Option.isSome_iff_exists.1 hsome
    obtain ⟨database, hdatabase, hcolumn⟩ := Option.bind_eq_some_iff.1 hcolumn
    obtain ⟨table, htable, hcolumn⟩ := Option.bind_eq_some_iff.1 hcolumn
    obtain ⟨hlisted, hkeeps⟩ := h.listed_of_database? hdatabase
    obtain ⟨htableListed, htableKeeps⟩ := listed_of_table? hkeeps htable
    obtain ⟨row, hrow, hname, -⟩ := listed_of_find? Column.name CatalogColumn.name
      htableKeeps.columns (fun _ _ hkeeps => hkeeps.name) hcolumn
    exact ⟨hlisted, htableListed, row, hrow, hname⟩
  · rintro ⟨hdatabase, htable, row, hrow, hname⟩
    obtain ⟨database, hfound⟩ := Option.isSome_iff_exists.1 <|
      isSome_find?_of_listed Database.name id h (fun _ _ hkeeps => hkeeps.name) hdatabase
    obtain ⟨-, hkeeps⟩ := h.listed_of_database? hfound
    obtain ⟨table, htableFound⟩ := Option.isSome_iff_exists.1 <|
      isSome_find?_of_listed Table.name id hkeeps.tables (fun _ _ hkeeps => hkeeps.name) htable
    obtain ⟨-, htableKeeps⟩ := listed_of_table? hkeeps htableFound
    have hcolumn := isSome_find?_of_listed Column.name CatalogColumn.name htableKeeps.columns
      (fun _ _ hkeeps => hkeeps.name) hrow
    rw [hname] at hcolumn
    have hholder : schema.holder? ref = some table :=
      Option.bind_eq_some_iff.2 ⟨_, hfound, htableFound⟩
    rw [column?_eq_holder, hholder]
    exact hcolumn

/-- The columns of a schema that keeps a catalog show under their names, and their paths begin
with that of their table. -/
theorem column_path (h : schema.Keeps catalog policies) {database : Database}
    (hdatabase : database ∈ schema.databases) {table : Table} (htable : table ∈ database.tables)
    {column : Column} (hcolumn : column ∈ table.columns) :
    column.displayName.primary = column.name ∧
      column.qualifiedName = database.name ++ "." ++ table.name ++ "." ++ column.name := by
  obtain ⟨listed, -, hkeeps⟩ := exists_of_forall₂_left h hdatabase
  obtain ⟨name, -, hkept⟩ := exists_of_forall₂_left hkeeps.tables htable
  obtain ⟨row, hrow, hshown⟩ := exists_of_forall₂_left hkept.columns hcolumn
  obtain ⟨hrowDatabase, hrowTable⟩ := Catalog.owner_of_mem_keptColumns hrow
  refine ⟨hshown.shown.trans hshown.name.symm, ?_⟩
  rw [hshown.path, CatalogColumn.path, hrowDatabase, hrowTable, hkeeps.name, hkept.name,
    hshown.name]

end Schema.Keeps

namespace Catalog

variable (catalog : Catalog) (policies : List AccessPolicy)

theorem keeps_toTable? (owner name : String)
    (hkept : (!(AccessPolicy.forSubject (owner ++ "." ++ name) policies).excluded) = true) :
    ∃ table, catalog.toTable? policies owner name = some table ∧
      Table.Keeps catalog policies owner table name := by
  rw [Bool.not_eq_true'] at hkept
  exact ⟨_, if_neg (ne_true_of_eq_false hkept), rfl, rfl, rfl, rfl, rfl, rfl,
    forall₂_filterMap Column.Keeps.toColumn? (toColumn?_excluded policies) _⟩

theorem toTable?_excluded (owner name : String)
    (hexcluded : (!(AccessPolicy.forSubject (owner ++ "." ++ name) policies).excluded) = false) :
    catalog.toTable? policies owner name = none := by
  rw [Bool.not_eq_false'] at hexcluded
  exact if_pos hexcluded

theorem keeps_toDatabase? (name : String) (hkept :
    (!(systemDatabases.contains name || (AccessPolicy.forSubject name policies).excluded)) = true) :
    ∃ database, catalog.toDatabase? policies name = some database ∧
      database.Keeps catalog policies name := by
  rw [Bool.not_eq_true'] at hkept
  refine ⟨_, if_neg (ne_true_of_eq_false hkept), rfl, rfl, ?_⟩
  have hmade := forall₂_filterMap (keeps_toTable? catalog policies name)
    (toTable?_excluded catalog policies name)
    ((catalog.tables.filter fun row => row.1 == name).map Prod.snd)
  rwa [List.filterMap_map] at hmade

theorem keeps_bareSchema : (catalog.bareSchema policies).Keeps catalog policies := by
  refine forall₂_filterMap (keeps_toDatabase? catalog policies) (fun name hexcluded => ?_) _
  rw [Bool.not_eq_false'] at hexcluded
  exact if_pos hexcluded

/-- The schema of a catalog is what the policies leave of it. -/
theorem keeps_toSchema (aliases : Entries (List String)) :
    (catalog.toSchema policies aliases).Keeps catalog policies :=
  toSchema_induction (motive := fun schema => schema.Keeps catalog policies) catalog policies
    (keeps_bareSchema catalog policies) (fun _ entry h => h.link entry)
    fun _ entry _ h => h.addAliases entry.1 entry.2

end Catalog

end TableApi
