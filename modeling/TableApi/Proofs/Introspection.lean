import TableApi.Catalog
import Mathlib.Data.List.Forall2

/-!
# What a schema keeps of its catalog

A table of a schema *reflects* the catalog when its columns are the catalog's rows
for it, in order, without those that a policy excludes, and when its primary-key
columns are those that the catalog marks so. Introspection builds reflecting tables
(`Catalog.reflects_toSchema`); setting a relation and adding aliases change columns,
but nothing that reflecting is about.
-/

namespace TableApi

def CatalogColumn.path (row : CatalogColumn) : String :=
  row.database ++ "." ++ row.table ++ "." ++ row.name

/-- Whether a policy leaves a catalog row out. -/
def CatalogColumn.excludedBy (row : CatalogColumn) (policies : List AccessPolicy) : Bool :=
  (AccessPolicy.forSubject row.path policies).excluded

/-- The rows that the catalog lists for a table. -/
def Catalog.rowsOf (catalog : Catalog) (database table : String) : List CatalogColumn :=
  catalog.columns.filter fun row => row.database == database && row.table == table

/-- A column is the visible column of a catalog row. -/
structure Column.Shows (column : Column) (row : CatalogColumn) : Prop where
  name : column.name = row.name
  qualifiedName : column.qualifiedName = row.path
  primary : column.isPrimary = decide (row.key = "PRI")
  visible : column.policy.excluded = false

/-- A table's columns are the rows of the catalog that the policies leave in. -/
def Table.Reflects (table : Table) (catalog : Catalog) (policies : List AccessPolicy) : Prop :=
  List.Forall₂ Column.Shows table.columns
    ((catalog.rowsOf table.database table.name).filter fun row => !row.excludedBy policies)

/-! ## Changing items of a list -/

section UpdateFirst

variable {α β : Type} {fits : α → Bool} {change : α → α}

/-- An item after a change was there before, or one that fits was changed to it. -/
theorem mem_updateFirst {items : List α} {item : α} (h : item ∈ updateFirst fits change items) :
    item ∈ items ∨ ∃ old ∈ items, fits old = true ∧ item = change old := by
  induction items with
  | nil => cases h
  | cons first rest ih =>
    rw [updateFirst] at h
    split at h
    · next hfits =>
      rcases List.mem_cons.1 h with rfl | h
      · exact .inr ⟨first, List.mem_cons_self, hfits, rfl⟩
      · exact .inl (List.mem_cons_of_mem _ h)
    · rcases List.mem_cons.1 h with rfl | h
      · exact .inl List.mem_cons_self
      · rcases ih h with h | ⟨old, hold, heq⟩
        · exact .inl (List.mem_cons_of_mem _ h)
        · exact .inr ⟨old, List.mem_cons_of_mem _ hold, heq⟩

theorem forall₂_updateFirst {r : α → β → Prop} (hchange : ∀ item other, r item other →
    r (change item) other) {items : List α} {others : List β} (h : List.Forall₂ r items others) :
    List.Forall₂ r (updateFirst fits change items) others := by
  induction h with
  | nil => exact .nil
  | @cons item other _ _ hfirst hrest ih =>
    rw [updateFirst]
    split
    · exact .cons (hchange _ _ hfirst) hrest
    · exact .cons hfirst ih

theorem forall₂_filterMap {f : α → Option β} {keep : α → Bool} {r : β → α → Prop}
    (hsome : ∀ item, keep item = true → ∃ value, f item = some value ∧ r value item)
    (hnone : ∀ item, keep item = false → f item = none) (items : List α) :
    List.Forall₂ r (items.filterMap f) (items.filter keep) := by
  induction items with
  | nil => exact .nil
  | cons item rest ih =>
    rcases hkeep : keep item with _ | _
    · rw [List.filterMap_cons_none (hnone item hkeep), List.filter_cons_of_neg (by simp [hkeep])]
      exact ih
    · obtain ⟨value, hvalue, hr⟩ := hsome item hkeep
      rw [List.filterMap_cons_some hvalue, List.filter_cons_of_pos hkeep]
      exact .cons hr ih

end UpdateFirst

theorem exists_of_forall₂_left {α β : Type} {r : α → β → Prop} {items : List α} {others : List β}
    (h : List.Forall₂ r items others) {item : α} (hmem : item ∈ items) :
    ∃ other ∈ others, r item other := by
  induction h with
  | nil => cases hmem
  | cons hfirst _ ih =>
    rcases List.mem_cons.1 hmem with rfl | hmem
    · exact ⟨_, List.mem_cons_self, hfirst⟩
    · obtain ⟨other, hother, hr⟩ := ih hmem
      exact ⟨other, List.mem_cons_of_mem _ hother, hr⟩

theorem exists_of_forall₂_right {α β : Type} {r : α → β → Prop} {items : List α} {others : List β}
    (h : List.Forall₂ r items others) {other : β} (hmem : other ∈ others) :
    ∃ item ∈ items, r item other := by
  have hflip : List.Forall₂ (flip r) others items := List.Forall₂.flip h
  exact exists_of_forall₂_left hflip hmem

namespace Table.Reflects

variable {table : Table} {catalog : Catalog} {policies : List AccessPolicy}

theorem row_of_column (h : table.Reflects catalog policies) {column : Column}
    (hcolumn : column ∈ table.columns) :
    ∃ row ∈ catalog.rowsOf table.database table.name,
      row.excludedBy policies = false ∧ column.Shows row := by
  obtain ⟨row, hrow, hshows⟩ := exists_of_forall₂_left h hcolumn
  obtain ⟨hrow, hkept⟩ := List.mem_filter.1 hrow
  exact ⟨row, hrow, by simpa using hkept, hshows⟩

theorem column_of_row (h : table.Reflects catalog policies) {row : CatalogColumn}
    (hrow : row ∈ catalog.rowsOf table.database table.name)
    (hkept : row.excludedBy policies = false) : ∃ column ∈ table.columns, column.Shows row := by
  have hmem : row ∈ (catalog.rowsOf table.database table.name).filter
      fun row => !row.excludedBy policies :=
    List.mem_filter.2 ⟨hrow, by simp [hkept]⟩
  exact exists_of_forall₂_right h hmem

/-- What a policy excludes is not kept, so all columns are visible. -/
theorem visibleColumns_eq (h : table.Reflects catalog policies) :
    table.visibleColumns = table.columns := by
  refine List.filter_eq_self.2 fun column hcolumn => ?_
  obtain ⟨row, -, -, hshows⟩ := h.row_of_column hcolumn
  rw [hshows.visible]
  rfl

theorem path_of_mem_rowsOf {row : CatalogColumn}
    (hrow : row ∈ catalog.rowsOf table.database table.name) :
    row.path = table.database ++ "." ++ table.name ++ "." ++ row.name := by
  obtain ⟨-, htable⟩ := List.mem_filter.1 hrow
  simp only [Bool.and_eq_true, beq_iff_eq] at htable
  rw [CatalogColumn.path, htable.1, htable.2]

theorem qualifiedName_eq (h : table.Reflects catalog policies) {column : Column}
    (hcolumn : column ∈ table.columns) :
    column.qualifiedName = table.database ++ "." ++ table.name ++ "." ++ column.name := by
  obtain ⟨row, hrow, -, hshows⟩ := h.row_of_column hcolumn
  rw [hshows.qualifiedName, hshows.name]
  exact path_of_mem_rowsOf hrow

/-- The table has a primary-key column for a row of the catalog's key unless a policy
leaves the row out. -/
theorem any_primary_iff (h : table.Reflects catalog policies) {row : CatalogColumn}
    (hrow : row ∈ catalog.rowsOf table.database table.name) (hkey : row.key = "PRI") :
    (table.columns.any fun column => column.name == row.name && column.isPrimary) = true ↔
      row.excludedBy policies = false := by
  rw [List.any_eq_true]
  constructor
  · rintro ⟨column, hcolumn, hfits⟩
    rw [Bool.and_eq_true, beq_iff_eq] at hfits
    obtain ⟨shown, hshown, hkept, hshows⟩ := h.row_of_column hcolumn
    have hpath : row.path = shown.path := by
      rw [path_of_mem_rowsOf hrow, path_of_mem_rowsOf hshown, ← hshows.name, hfits.1]
    rw [CatalogColumn.excludedBy, hpath]
    exact hkept
  · intro hkept
    obtain ⟨column, hcolumn, hshows⟩ := h.column_of_row hrow hkept
    refine ⟨column, hcolumn, ?_⟩
    rw [hshows.name, hshows.primary, hkey]
    simp

end Table.Reflects

namespace Schema

variable {schema : Schema}

/-- Every table has a property in the database that it stands in. -/
def Holds (P : String → Table → Prop) (schema : Schema) : Prop :=
  ∀ database ∈ schema.databases, ∀ table ∈ database.tables, P database.name table

/-- A change of one table keeps what it keeps of that table. -/
theorem Holds.updateTable {P : String → Table → Prop} (h : schema.Holds P)
    {database name : String} {change : Table → Table}
    (hchange : ∀ table, P database table → table.name = name → P database (change table)) :
    (schema.updateTable database name change).Holds P := by
  intro found hfound table htable
  rcases mem_updateFirst hfound with hfound | ⟨old, hold, hname, rfl⟩
  · exact h found hfound table htable
  · obtain rfl : old.name = database := by simpa using hname
    rcases mem_updateFirst htable with htable | ⟨oldTable, holdTable, htableName, rfl⟩
    · exact h old hold table htable
    · exact hchange oldTable (h old hold oldTable holdTable) (by simpa using htableName)

theorem mem_tables_of_table? {path : String} {table : Table} (h : schema.table? path = some table) :
    table ∈ schema.tables := by
  unfold table? at h
  obtain ⟨⟨database, name⟩, -, h⟩ := Option.bind_eq_some_iff.1 h
  obtain ⟨found, hfound, htable⟩ := Option.bind_eq_some_iff.1 h
  exact List.mem_flatMap.2 ⟨found, List.mem_of_find?_eq_some hfound,
    List.mem_of_find?_eq_some htable⟩

/-- Every table reflects the catalog. -/
def Reflects (schema : Schema) (catalog : Catalog) (policies : List AccessPolicy) : Prop :=
  ∀ table ∈ schema.tables, table.Reflects catalog policies

variable {catalog : Catalog} {policies : List AccessPolicy}

theorem reflects_iff_holds :
    schema.Reflects catalog policies ↔ schema.Holds fun _ table => table.Reflects catalog policies := by
  constructor
  · intro h database hdatabase table htable
    exact h table (List.mem_flatMap.2 ⟨database, hdatabase, htable⟩)
  · intro h table htable
    obtain ⟨database, hdatabase, htable⟩ := List.mem_flatMap.1 htable
    exact h database hdatabase table htable

theorem Reflects.updateTable (h : schema.Reflects catalog policies) {database name : String}
    {change : Table → Table}
    (hchange : ∀ table, table.Reflects catalog policies → (change table).Reflects catalog policies) :
    (schema.updateTable database name change).Reflects catalog policies :=
  reflects_iff_holds.2 <| (reflects_iff_holds.1 h).updateTable fun table h _ => hchange table h

theorem Reflects.updateColumn (h : schema.Reflects catalog policies) {ref : ColumnRef}
    {change : Column → Column}
    (hchange : ∀ column row, Column.Shows column row → Column.Shows (change column) row) :
    (schema.updateColumn ref change).Reflects catalog policies :=
  h.updateTable fun _ htable => forall₂_updateFirst hchange htable

/-- A relation changes neither the names nor the role of a primary key. -/
theorem Reflects.link (h : schema.Reflects catalog policies) (entry : CatalogLink) :
    (schema.link entry).Reflects catalog policies := by
  unfold Schema.link
  split
  · exact h
  · refine h.updateColumn fun column row hshows => ?_
    refine ⟨hshows.name, hshows.qualifiedName, ?_, hshows.visible⟩
    rw [← hshows.primary]
    unfold Column.isPrimary Column.references
    cases column.keyRole <;> rfl

theorem Reflects.addAliases (h : schema.Reflects catalog policies) (path : String)
    (aliases : List String) : (schema.addAliases path aliases).Reflects catalog policies := by
  unfold Schema.addAliases
  split
  · exact h.updateTable fun _ htable => htable
  · refine h.updateColumn fun column row hshows => ?_
    exact ⟨hshows.name, hshows.qualifiedName, hshows.primary, hshows.visible⟩
  · exact h

end Schema

namespace Catalog

variable (catalog : Catalog) (policies : List AccessPolicy)

theorem shows_toColumn? (row : CatalogColumn) (h : (!row.excludedBy policies) = true) :
    ∃ column, toColumn? policies row = some column ∧ column.Shows row := by
  have hexcluded : (AccessPolicy.forSubject
      (Column.ofType row.database row.table row.name row.typeTag).qualifiedName
      policies).excluded = false :=
    (by simpa using h : row.excludedBy policies = false)
  refine ⟨_, by rw [toColumn?]; simp only [hexcluded]; rfl, rfl, rfl, ?_, hexcluded⟩
  show (KeyRole.ofCatalog row.key == .primary) = _
  rw [Bool.eq_iff_iff, beq_iff_eq, decide_eq_true_iff]
  exact KeyRole.ofCatalog_eq_primary_iff

theorem toColumn?_excluded (row : CatalogColumn) (h : (!row.excludedBy policies) = false) :
    toColumn? policies row = none := by
  have hexcluded : (AccessPolicy.forSubject
      (Column.ofType row.database row.table row.name row.typeTag).qualifiedName
      policies).excluded = true :=
    (by simpa using h : row.excludedBy policies = true)
  rw [toColumn?]
  simp only [hexcluded]
  rfl

theorem reflects_toTable? {database name : String} {table : Table}
    (h : catalog.toTable? policies database name = some table) :
    table.Reflects catalog policies := by
  unfold toTable? at h
  simp only at h
  split at h
  · cases h
  · cases h
    exact forall₂_filterMap (shows_toColumn? policies) (toColumn?_excluded policies) _

/-- A table of the bare schema is made of a row of the catalog. -/
theorem holds_bare {P : String → Table → Prop} (htable : ∀ {database name table},
    catalog.toTable? policies database name = some table → P database table) :
    (⟨catalog.databases.filterMap (catalog.toDatabase? policies)⟩ : Schema).Holds P := by
  intro database hdatabase table hmem
  obtain ⟨name, -, hname⟩ := List.mem_filterMap.1 hdatabase
  unfold toDatabase? at hname
  simp only at hname
  split at hname
  · cases hname
  · cases hname
    obtain ⟨row, -, hrow⟩ := List.mem_filterMap.1 hmem
    exact htable hrow

/-- What holds of the bare schema and is kept by setting relations and adding aliases holds
of the schema of a catalog. -/
theorem toSchema_induction {motive : Schema → Prop} {aliases : Entries (List String)}
    (hbare : motive ⟨catalog.databases.filterMap (catalog.toDatabase? policies)⟩)
    (hlink : ∀ schema entry, motive schema → motive (schema.link entry))
    (halias : ∀ schema, ∀ entry ∈ aliases, motive schema →
      motive (schema.addAliases entry.1 entry.2)) :
    motive (catalog.toSchema policies aliases) := by
  have hlinked : ∀ (links : List CatalogLink) (schema : Schema), motive schema →
      motive (links.foldl Schema.link schema) := by
    intro links
    induction links with
    | nil => exact fun _ h => h
    | cons entry rest ih => exact fun schema h => ih _ (hlink schema entry h)
  have haliased : ∀ (entries : Entries (List String)), entries ⊆ aliases → ∀ schema, motive schema →
      motive (entries.foldl (fun schema entry => schema.addAliases entry.1 entry.2) schema) := by
    intro entries
    induction entries with
    | nil => exact fun _ _ h => h
    | cons entry rest ih =>
      intro hsub schema h
      rw [List.cons_subset] at hsub
      exact ih hsub.2 _ (halias schema entry hsub.1 h)
  exact haliased aliases (List.Subset.refl _) _ (hlinked catalog.links _ hbare)

/-- Introspection keeps the rows that the policies leave in, and their keys. -/
theorem reflects_toSchema (aliases : Entries (List String)) :
    (catalog.toSchema policies aliases).Reflects catalog policies := by
  refine toSchema_induction (motive := fun schema => schema.Reflects catalog policies)
    catalog policies ?_ ?_ ?_
  · exact Schema.reflects_iff_holds.2 (holds_bare catalog policies (reflects_toTable? catalog policies))
  · intro schema entry h
    exact h.link entry
  · intro schema entry _ h
    exact h.addAliases entry.1 entry.2

end Catalog

end TableApi
