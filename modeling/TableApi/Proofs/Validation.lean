import TableApi.Proofs.Introspection
import TableApi.Proofs.JoinTree

/-!
# What validation says about compiling

A schema is valid when its tables and columns carry their owners' names and every relation
leads to a column (`Schema.validate_ok_iff`). Validation follows a relation from the
database to the table to the column, while compiling joins the names to a path and looks
that up, which cuts it at the first dot. The two find the same table exactly when the
database has no dot in its name (`Schema.Valid.found_iff`). So a resource of a valid schema
is compiled from the tables that validation saw, as long as the names of the databases are
plain: `compile_follows_validation`.
-/

namespace TableApi

/-! ## Valid schemas -/

/-- The table in which a column is looked for. -/
def Schema.holder? (schema : Schema) (ref : ColumnRef) : Option Table :=
  (schema.database? ref.database).bind fun database => database.table? ref.table

theorem Schema.column?_eq_holder (schema : Schema) (ref : ColumnRef) :
    schema.column? ref = (schema.holder? ref).bind fun table => table.column? ref.column := by
  unfold column? holder?
  cases schema.database? ref.database <;> rfl

/-- A table and its columns carry the names of their owners, and each relation leads to a
column. -/
structure Table.ValidIn (schema : Schema) (database : Database) (table : Table) : Prop where
  owner : table.database = database.name
  path : table.qualifiedName = database.name ++ "." ++ table.name
  columns : ∀ column ∈ table.columns, column.database = database.name ∧ column.table = table.name
  relations : ∀ column ∈ table.columns, ∀ ref, column.relation = some ref →
    (schema.column? ref).isSome = true

def Schema.Valid (schema : Schema) : Prop :=
  ∀ database ∈ schema.databases, ∀ table ∈ database.tables, table.ValidIn schema database

namespace Schema

variable {schema : Schema} {database : Database} {table : Table}

theorem checkColumn_ok_iff {column : Column} :
    schema.checkColumn database table column = .ok () ↔
      (column.database = database.name ∧ column.table = table.name) ∧
        ∀ ref, column.relation = some ref → (schema.column? ref).isSome = true := by
  unfold checkColumn
  by_cases howner : column.database = database.name ∧ column.table = table.name
  · rw [if_neg (by simpa [not_or] using howner)]
    cases hrelation : column.relation with
    | none => simp [howner]
    | some target => cases hcolumn : schema.column? target <;> simp [howner, hcolumn]
  · rw [if_pos (by simpa [← not_and_or] using howner)]
    simp [howner]

theorem checkTable_ok_iff :
    schema.checkTable database table = .ok () ↔ table.ValidIn schema database := by
  unfold checkTable
  constructor
  · intro h
    split at h
    · cases h
    · next howner =>
      rw [not_or, not_not, not_not] at howner
      have hcolumns := fun column hcolumn => checkColumn_ok_iff.1 (forM_ok_iff.1 h column hcolumn)
      exact ⟨howner.1, howner.2, fun column hcolumn => (hcolumns column hcolumn).1,
        fun column hcolumn => (hcolumns column hcolumn).2⟩
  · rintro ⟨howner, hpath, hcolumns, hrelations⟩
    rw [if_neg (by simp [howner, hpath])]
    exact forM_ok_iff.2 fun column hcolumn =>
      checkColumn_ok_iff.2 ⟨hcolumns column hcolumn, hrelations column hcolumn⟩

/-- Validation accepts exactly the valid schemas. -/
theorem validate_ok_iff : schema.validate = .ok () ↔ schema.Valid := by
  unfold validate
  rw [forM_ok_iff]
  refine forall₂_congr fun database _ => ?_
  rw [forM_ok_iff]
  exact forall₂_congr fun table _ => checkTable_ok_iff

/-! ## Two ways to find a table -/

theorem mem_of_database? {name : String} (h : schema.database? name = some database) :
    database ∈ schema.databases ∧ database.name = name := by
  refine ⟨List.mem_of_find?_eq_some h, ?_⟩
  have hname := List.find?_some h
  exact eq_of_beq hname

/-- A path is looked up in the database before its first dot. -/
theorem database_of_table? {path : String} (h : schema.table? path = some table) :
    ∃ database ∈ schema.databases, table ∈ database.tables ∧ '.' ∉ database.name.toList := by
  unfold table? at h
  obtain ⟨⟨before, after⟩, hcut, h⟩ := Option.bind_eq_some_iff.1 h
  obtain ⟨database, hdatabase, htable⟩ := Option.bind_eq_some_iff.1 h
  obtain ⟨hmem, rfl⟩ := mem_of_database? hdatabase
  exact ⟨database, hmem, List.mem_of_find?_eq_some htable, (Text.eq_of_cutFirst hcut).2⟩

/-- Without a dot in the database's name, a path is looked up in that database. -/
theorem table?_append {database name : String} (hplain : '.' ∉ database.toList) :
    schema.table? (database ++ "." ++ name) =
      (schema.database? database).bind fun found => found.table? name := by
  unfold table?
  have hcut : Text.cutFirst '.' (database ++ "." ++ name) = some (database, name) :=
    Text.cutFirst_append hplain
  rw [hcut]
  rfl

namespace Valid

/-- A relation of a valid schema has its column in a table of its database. -/
theorem holder_of_relation (hvalid : schema.Valid) (htable : table ∈ schema.tables)
    {column : Column} (hcolumn : column ∈ table.columns) {ref : ColumnRef}
    (hrelation : column.relation = some ref) :
    ∃ holder, schema.holder? ref = some holder ∧ holder.database = ref.database ∧
      (holder.column? ref.column).isSome = true := by
  obtain ⟨database, hdatabase, htable⟩ := List.mem_flatMap.1 htable
  have hsome := (hvalid database hdatabase table htable).relations column hcolumn ref hrelation
  obtain ⟨found, hfound⟩ := Option.isSome_iff_exists.1 hsome
  rw [column?_eq_holder] at hfound
  obtain ⟨holder, hholder, hreferenced⟩ := Option.bind_eq_some_iff.1 hfound
  refine ⟨holder, hholder, ?_, Option.isSome_iff_exists.2 ⟨found, hreferenced⟩⟩
  obtain ⟨owner, howner, hmem⟩ := Option.bind_eq_some_iff.1 hholder
  obtain ⟨howner, hname⟩ := mem_of_database? howner
  exact (hvalid owner howner holder (List.mem_of_find?_eq_some hmem)).owner.trans hname

/-- The path of a relation leads to the table that holds its column exactly when the name of
the database has no dot. -/
theorem found_iff (hvalid : schema.Valid) {ref : ColumnRef} {holder : Table}
    (hholder : schema.holder? ref = some holder) (howner : holder.database = ref.database) :
    schema.table? ref.tablePath = some holder ↔ '.' ∉ ref.database.toList := by
  constructor
  · intro hfound
    obtain ⟨database, hdatabase, htable, hplain⟩ := database_of_table? hfound
    rwa [← howner, (hvalid database hdatabase holder htable).owner]
  · intro hplain
    rw [ColumnRef.tablePath, table?_append hplain]
    exact hholder

end Valid

/-! ## References that are missing -/

/-- A relation that does not resolve leads to no table, or to one without the column. -/
theorem liveTarget?_error {column : Column} {fault : SchemaFault}
    (h : schema.liveTarget? column = .error fault) :
    ∃ ref, column.relation = some ref ∧
      ((schema.table? ref.tablePath = none ∧ fault = .missingReference "table" ref.tablePath) ∨
        ∃ found, schema.table? ref.tablePath = some found ∧ found.column? ref.column = none ∧
          fault = .missingReference "field" ref.path) := by
  unfold liveTarget? at h
  split at h
  · cases h
  · next ref hrelation =>
    refine ⟨ref, hrelation, ?_⟩
    split at h
    · next hnone =>
      cases h
      exact .inl ⟨hnone, rfl⟩
    · next found hfound =>
      split at h
      · next hnone =>
        cases h
        exact .inr ⟨found, hfound, hnone, rfl⟩
      · cases h

/-- A relation leads to a path of which the database has a dot in its name. -/
def Dotted (table : Table) (ref : ColumnRef) : Prop :=
  (∃ column ∈ table.visibleColumns, column.relation = some ref) ∧ '.' ∈ ref.database.toList

/-- In a valid schema only a relation to a dotted path does not resolve. -/
theorem Valid.dotted_of_error (hvalid : schema.Valid) (htable : table ∈ schema.tables)
    {column : Column} (hcolumn : column ∈ table.visibleColumns) {fault : SchemaFault}
    (h : schema.liveTarget? column = .error fault) :
    ∃ ref, Dotted table ref ∧
      (fault = .missingReference "table" ref.tablePath ∨
        fault = .missingReference "field" ref.path) := by
  obtain ⟨ref, hrelation, hmissing⟩ := liveTarget?_error h
  obtain ⟨holder, hholder, howner, hreferenced⟩ :=
    hvalid.holder_of_relation htable (List.mem_of_mem_filter hcolumn) hrelation
  have hdotted : '.' ∈ ref.database.toList := by
    by_contra hplain
    have hfound := (hvalid.found_iff hholder howner).2 hplain
    rcases hmissing with ⟨hnone, -⟩ | ⟨found, hsome, hnone, -⟩
    · rw [hfound] at hnone
      cases hnone
    · obtain rfl : holder = found := Option.some.inj (hfound.symm.trans hsome)
      rw [hnone] at hreferenced
      cases hreferenced
  refine ⟨ref, ⟨⟨column, hcolumn, hrelation⟩, hdotted⟩, ?_⟩
  rcases hmissing with ⟨-, hfault⟩ | ⟨found, -, -, hfault⟩
  · exact .inl hfault
  · exact .inr hfault

/-- A reference that mounting columns misses is that of one of them, or it is missed below
one of them. -/
theorem missing_of_mountColumns
    {mountBelow : Nat → String → Table → Except SchemaFault Mounted} {owner lead : String}
    {next : Nat} {columns : List Column} {fault : SchemaFault}
    (h : schema.mountColumns mountBelow owner lead next columns = .error fault) :
    (∃ column ∈ columns, schema.liveTarget? column = .error fault) ∨
      ∃ index leadBelow, ∃ found ∈ schema.tables, mountBelow index leadBelow found = .error fault := by
  induction columns generalizing next with
  | nil => cases h
  | cons source rest ih =>
    rcases mountColumns_cons_error h with htarget | ⟨found, referenced, hlive, hbelow⟩ |
      ⟨later, h, -⟩
    · exact .inl ⟨source, List.mem_cons_self, htarget⟩
    · obtain ⟨path, hfound⟩ := table?_of_liveTarget? hlive
      exact .inr ⟨_, _, found, mem_tables_of_table? hfound, hbelow⟩
    · rcases ih h with ⟨column, hcolumn, htarget⟩ | hbelow
      · exact .inl ⟨column, List.mem_cons_of_mem _ hcolumn, htarget⟩
      · exact .inr hbelow

/-- A table whose mounting misses a reference has hops left, and misses it in its columns. -/
theorem mountColumns_of_missing {hops : Nat} {path : List String} {index : Nat} {lead : String}
    {kind id : String}
    (h : schema.mountTable hops path index lead table = .error (.missingReference kind id)) :
    ∃ below, hops = below + 1 ∧
      schema.mountColumns (schema.mountTable below (path ++ [table.qualifiedName]))
        (tableAlias index) lead (index + 1) table.visibleColumns =
          .error (.missingReference kind id) := by
  rcases mountTable_error h with ⟨-, hfault⟩ | ⟨-, hfault⟩ | ⟨-, hfault⟩ | hcolumns
  · cases hfault
  · cases hfault
  · cases hfault
  · exact hcolumns

/-- A reference that mounting misses is that of a visible column of a table. -/
theorem missing_of_mountTable {hops : Nat} {path : List String} {index : Nat} {lead : String}
    (htable : table ∈ schema.tables) {kind id : String}
    (h : schema.mountTable hops path index lead table = .error (.missingReference kind id)) :
    ∃ found ∈ schema.tables, ∃ column ∈ found.visibleColumns,
      schema.liveTarget? column = .error (.missingReference kind id) := by
  -- The induction is on the hops: each branch is mounted with one less.
  induction hops generalizing path index lead table with
  | zero =>
    obtain ⟨_, hhops, -⟩ := mountColumns_of_missing h
    cases hhops
  | succ hops ih =>
    obtain ⟨_, hhops, hcolumns⟩ := mountColumns_of_missing h
    obtain rfl := Nat.succ.inj hhops
    rcases missing_of_mountColumns hcolumns with ⟨column, hcolumn, htarget⟩ |
      ⟨_, _, found, hfound, hbelow⟩
    · exact ⟨table, htable, column, hcolumn, htarget⟩
    · exact ih hfound hbelow

/-- Every foreign key that is followed leads to a table of the schema. -/
theorem Expands.mem_tables_of_mem_hops {expansion : Expansion}
    (h : schema.Expands table.visibleColumns expansion) {owner next : Nat} {hop : Hop}
    (hhop : hop ∈ expansion.hops owner next) : hop.table ∈ schema.tables := by
  obtain ⟨hlive, -⟩ := h.mem_hops (List.Subset.refl _) hhop
  obtain ⟨path, hfound⟩ := table?_of_liveTarget? hlive
  exact mem_tables_of_table? hfound

/-- Every foreign key that is followed is a visible column of a table of the schema. -/
theorem Expands.visible_of_mem_hops {expansion : Expansion}
    (h : schema.Expands table.visibleColumns expansion) (htable : table ∈ schema.tables)
    {owner next : Nat} {hop : Hop} (hhop : hop ∈ expansion.hops owner next) :
    ∃ found ∈ schema.tables, hop.source ∈ found.visibleColumns := by
  obtain ⟨-, found, hfound, hsource⟩ := h.mem_hops (List.Subset.refl _) hhop
  refine ⟨found, ?_, hsource⟩
  rcases List.mem_cons.1 hfound with heq | hfound
  · obtain ⟨-, rfl⟩ := Prod.mk.inj heq
    exact htable
  · obtain ⟨other, hother, heq⟩ := List.mem_map.1 hfound
    obtain ⟨-, rfl⟩ := Prod.mk.inj heq
    exact h.mem_tables_of_mem_hops hother

/-! ## Plain names of databases -/

/-- The names of the databases are distinct, and no dot stands in them. -/
structure PlainNames (schema : Schema) : Prop where
  plain : ∀ database ∈ schema.databases, '.' ∉ database.name.toList
  distinct : (schema.databases.map Database.name).Nodup

instance (schema : Schema) : Decidable schema.PlainNames :=
  decidable_of_iff ((∀ database ∈ schema.databases, '.' ∉ database.name.toList) ∧
      (schema.databases.map Database.name).Nodup)
    ⟨fun h => ⟨h.1, h.2⟩, fun h => ⟨h.plain, h.distinct⟩⟩

/-- Among items of distinct names, one is found by its name. -/
theorem find?_by_name {α : Type} {name : α → String} {items : List α}
    (hnodup : (items.map name).Nodup) {item : α} (hmem : item ∈ items) :
    items.find? (fun other => name other == name item) = some item := by
  have hsome : (items.find? fun other => name other == name item).isSome = true :=
    List.find?_isSome.2 ⟨item, hmem, beq_self_eq_true _⟩
  obtain ⟨found, hfound⟩ := Option.isSome_iff_exists.1 hsome
  have hname := List.find?_some hfound
  rw [hfound, List.inj_on_of_nodup_map hnodup (List.mem_of_find?_eq_some hfound) hmem
    (eq_of_beq hname)]

theorem PlainNames.database?_eq (hplain : schema.PlainNames) (hmem : database ∈ schema.databases) :
    schema.database? database.name = some database :=
  find?_by_name hplain.distinct hmem

/-- Under plain names the path of every table is found. -/
theorem PlainNames.table?_isSome (hplain : schema.PlainNames) (hvalid : schema.Valid)
    (htable : table ∈ schema.tables) : (schema.table? table.qualifiedName).isSome = true := by
  obtain ⟨database, hdatabase, htable⟩ := List.mem_flatMap.1 htable
  rw [(hvalid database hdatabase table htable).path,
    table?_append (hplain.plain database hdatabase), hplain.database?_eq hdatabase]
  show (database.tables.find? fun found => found.name == table.name).isSome = true
  rw [List.find?_isSome]
  exact ⟨table, htable, beq_self_eq_true _⟩

/-- No two tables of a database share a name, and no two columns of a table. -/
structure DistinctNames (schema : Schema) : Prop where
  tables : ∀ database ∈ schema.databases, (database.tables.map Table.name).Nodup
  columns : ∀ table ∈ schema.tables, (table.columns.map Column.name).Nodup

instance (schema : Schema) : Decidable schema.DistinctNames :=
  decidable_of_iff ((∀ database ∈ schema.databases, (database.tables.map Table.name).Nodup) ∧
      ∀ table ∈ schema.tables, (table.columns.map Column.name).Nodup)
    ⟨fun h => ⟨h.1, h.2⟩, fun h => ⟨h.tables, h.columns⟩⟩

theorem DistinctNames.table?_eq (hnames : schema.DistinctNames)
    (hdatabase : database ∈ schema.databases) (hmem : table ∈ database.tables) :
    database.table? table.name = some table :=
  find?_by_name (hnames.tables database hdatabase) hmem

theorem DistinctNames.column?_eq (hnames : schema.DistinctNames) (htable : table ∈ schema.tables)
    {column : Column} (hmem : column ∈ table.columns) :
    table.column? column.name = some column :=
  find?_by_name (hnames.columns table htable) hmem

/-- Under plain and distinct names the path of every table leads to the table itself. -/
theorem PlainNames.table?_eq (hplain : schema.PlainNames) (hnames : schema.DistinctNames)
    (hvalid : schema.Valid) (htable : table ∈ schema.tables) :
    schema.table? table.qualifiedName = some table := by
  obtain ⟨database, hdatabase, htable⟩ := List.mem_flatMap.1 htable
  rw [(hvalid database hdatabase table htable).path,
    table?_append (hplain.plain database hdatabase), hplain.database?_eq hdatabase]
  exact hnames.table?_eq hdatabase htable

/-- No two columns of a table are equal. -/
theorem DistinctNames.nodup_visibleColumns (hnames : schema.DistinctNames)
    (htable : table ∈ schema.tables) : table.visibleColumns.Nodup :=
  List.Nodup.filter _ (List.Nodup.of_map _ (hnames.columns table htable))

/-- Without dots in the names of the databases no relation leads to a dotted path. -/
theorem Valid.not_dotted (hvalid : schema.Valid)
    (hplain : ∀ database ∈ schema.databases, '.' ∉ database.name.toList)
    (htable : table ∈ schema.tables) {ref : ColumnRef} : ¬ Dotted table ref := by
  rintro ⟨⟨column, hcolumn, hrelation⟩, hdotted⟩
  obtain ⟨holder, hholder, -, -⟩ :=
    hvalid.holder_of_relation htable (List.mem_of_mem_filter hcolumn) hrelation
  obtain ⟨database, hdatabase, -⟩ := Option.bind_eq_some_iff.1 hholder
  obtain ⟨hmem, hname⟩ := mem_of_database? hdatabase
  exact hplain database hmem (hname ▸ hdotted)

/-- Under plain names no relation leads to a dotted path. -/
theorem PlainNames.not_dotted (hplain : schema.PlainNames) (hvalid : schema.Valid)
    (htable : table ∈ schema.tables) {ref : ColumnRef} : ¬ Dotted table ref :=
  hvalid.not_dotted hplain.plain htable

end Schema

/-! ## Compiling a valid schema -/

namespace Resource

variable {schema : Schema} {root : Table} {resource : Resource}

/-- A reference that compiling a table of a valid schema misses is the table's own path or a
dotted one. -/
theorem missing_of_compile (hvalid : schema.Valid) (hroot : root ∈ schema.tables)
    {kind id : String} (h : compile schema root = .error (.missingReference kind id)) :
    schema.table? root.qualifiedName = none ∧ kind = "table" ∧ id = root.qualifiedName ∨
      ∃ table ∈ schema.tables, ∃ ref, Schema.Dotted table ref ∧
        (kind = "table" ∧ id = ref.tablePath ∨ kind = "field" ∧ id = ref.path) := by
  unfold compile at h
  split at h
  · next hnone =>
    cases h
    exact .inl ⟨by simpa using hnone, rfl, rfl⟩
  · rcases error_of_bind h with hmount | ⟨mounted, -, hresource⟩
    · obtain ⟨table, htable, column, hcolumn, htarget⟩ := Schema.missing_of_mountTable hroot hmount
      obtain ⟨ref, hdotted, hfault⟩ := hvalid.dotted_of_error htable hcolumn htarget
      simp only [SchemaFault.missingReference.injEq] at hfault
      exact .inr ⟨table, htable, ref, hdotted, hfault⟩
    · rcases ofMounted_error hresource with ⟨_, hfault⟩ | ⟨_, _, hfault⟩
      · cases hfault
      · cases hfault

/-- Join number `k` is for the relation of a column to `target`, and mounts `table`. -/
def MountsFor (schema : Schema) (resource : Resource) (k : Nat) (target : ColumnRef)
    (table : Table) : Prop :=
  ∃ j source, resource.Follows schema k j source ∧ source.relation = some target ∧
    resource.tables[k + 1]? = some { table with storageAlias := some (tableAlias (k + 1)) }

/-- Each join over a valid schema mounts the table that a relation leads to, unless the path
is dotted. -/
theorem exists_mountsFor (hvalid : schema.Valid) (hroot : root ∈ schema.tables)
    (hcompile : compile schema root = .ok resource) {k : Nat} (hk : k < resource.joins.length) :
    ∃ target table, resource.MountsFor schema k target table ∧
      (schema.holder? target = some table ↔ '.' ∉ target.database.toList) ∧
      ('.' ∈ target.database.toList → ∃ owner ∈ schema.tables, Schema.Dotted owner target) := by
  obtain ⟨expansion, hexpands, hmounted, -⟩ := mounted_of_compile hcompile
  rw [joins_eq hmounted, List.length_map] at hk
  obtain ⟨hop, hhop⟩ : ∃ hop, (expansion.hops 0 1)[k]? = some hop :=
    ⟨_, List.getElem?_eq_getElem hk⟩
  obtain ⟨-, hfollows⟩ := follows_hop hmounted hexpands hhop
  obtain ⟨target, table, hleads, htable, -⟩ := hfollows.joined
  obtain ⟨owner, howner, hsource⟩ :=
    hexpands.visible_of_mem_hops hroot (List.mem_of_getElem? hhop)
  obtain ⟨holder, hholder, hdatabase, -⟩ :=
    hvalid.holder_of_relation howner (List.mem_of_mem_filter hsource) hleads.relation
  refine ⟨target, table, ⟨hop.owner, hop.source, hfollows, hleads.relation, htable⟩, ?_, ?_⟩
  · rw [← hvalid.found_iff hholder hdatabase, hholder, hleads.found]
    exact eq_comm
  · intro hdotted
    exact ⟨owner, howner, ⟨hop.source, hsource, hleads.relation⟩, hdotted⟩

/-- **Compiling follows validation, up to dots.** Over a table of a valid schema, a missing
reference is the table's own path or that of a relation into a database with a dot in its
name. Each join mounts the table in which validation finds the referenced column, exactly
when the name of that table's database has no dot. So under plain names of databases no
reference is missing, and all joins mount the tables that validation finds. -/
theorem compile_follows_validation (hvalid : schema.validate = .ok ())
    (hroot : root ∈ schema.tables) :
    (∀ kind id, compile schema root = .error (.missingReference kind id) →
      schema.table? root.qualifiedName = none ∧ kind = "table" ∧ id = root.qualifiedName ∨
      ∃ table ∈ schema.tables, ∃ ref, Schema.Dotted table ref ∧
        (kind = "table" ∧ id = ref.tablePath ∨ kind = "field" ∧ id = ref.path)) ∧
    (∀ resource, compile schema root = .ok resource → ∀ k < resource.joins.length,
      ∃ target table, resource.MountsFor schema k target table ∧
        (schema.holder? target = some table ↔ '.' ∉ target.database.toList)) ∧
    (schema.PlainNames →
      (∀ kind id, compile schema root ≠ .error (.missingReference kind id)) ∧
      ∀ resource, compile schema root = .ok resource → ∀ k < resource.joins.length,
        ∃ target table, resource.MountsFor schema k target table ∧
          schema.holder? target = some table) := by
  rw [Schema.validate_ok_iff] at hvalid
  refine ⟨fun kind id h => missing_of_compile hvalid hroot h, ?_, fun hplain => ⟨?_, ?_⟩⟩
  · intro resource hcompile k hk
    obtain ⟨target, table, hmounts, hsame, -⟩ := exists_mountsFor hvalid hroot hcompile hk
    exact ⟨target, table, hmounts, hsame⟩
  · intro kind id h
    rcases missing_of_compile hvalid hroot h with ⟨hnone, -⟩ | ⟨table, htable, ref, hdotted, -⟩
    · have hsome := hplain.table?_isSome hvalid hroot
      rw [hnone] at hsome
      cases hsome
    · exact hplain.not_dotted hvalid htable hdotted
  · intro resource hcompile k hk
    obtain ⟨target, table, hmounts, hsame, howner⟩ := exists_mountsFor hvalid hroot hcompile hk
    refine ⟨target, table, hmounts, hsame.2 fun hdot => ?_⟩
    obtain ⟨owner, hmem, hdotted⟩ := howner hdot
    exact hplain.not_dotted hvalid hmem hdotted

end Resource

/-- The shop has plain names, so every table of an order is one that validation finds. -/
theorem addresses_validated :
    (addressedShop.toSchema [] []).validate = .ok () ∧
      addressedTable ∈ (addressedShop.toSchema [] []).tables ∧
      (addressedShop.toSchema [] []).PlainNames ∧
      Resource.compile (addressedShop.toSchema [] []) addressedTable = .ok addressedOrder ∧
      addressedOrder.joins.length = 3 ∧
      ∀ k < addressedOrder.joins.length, ∃ target table,
        addressedOrder.MountsFor (addressedShop.toSchema [] []) k target table ∧
          (addressedShop.toSchema [] []).holder? target = some table := by
  have hvalid : (addressedShop.toSchema [] []).validate = .ok () := by decide +kernel
  have hroot : addressedTable ∈ (addressedShop.toSchema [] []).tables := by decide +kernel
  have hplain : (addressedShop.toSchema [] []).PlainNames := by decide +kernel
  have hcompile : Resource.compile (addressedShop.toSchema [] []) addressedTable =
      .ok addressedOrder := eq_ok_get _
  refine ⟨hvalid, hroot, hplain, hcompile, by decide +kernel, ?_⟩
  exact ((Resource.compile_follows_validation hvalid hroot).2.2 hplain).2 addressedOrder hcompile

/-! ## A database with a dot in its name -/

/-- Two tables have the path `shop.eu.customers`. -/
def dottedShop : Catalog where
  databases := ["shop", "shop.eu", "sales"]
  tables := [("shop", "eu.customers"), ("shop.eu", "customers"), ("shop.eu", "orders"),
    ("sales", "orders")]
  columns := [
    ⟨"shop", "eu.customers", "id", "int(11)", false, "PRI", false⟩,
    ⟨"shop.eu", "customers", "id", "int(11)", false, "PRI", false⟩,
    ⟨"shop.eu", "orders", "id", "int(11)", false, "PRI", false⟩,
    ⟨"shop.eu", "orders", "customer_id", "int(11)", false, "MUL", false⟩,
    ⟨"sales", "orders", "id", "int(11)", false, "PRI", false⟩,
    ⟨"sales", "orders", "customer_id", "int(11)", false, "MUL", false⟩]
  links := [⟨⟨"shop.eu", "orders", "customer_id"⟩, ⟨"shop.eu", "customers", "id"⟩⟩,
    ⟨⟨"sales", "orders", "customer_id"⟩, ⟨"shop.eu", "customers", "id"⟩⟩]

def europeanTable : Table :=
  ((dottedShop.toSchema [] []).holder? ⟨"shop.eu", "orders", "id"⟩).getD default

def salesTable : Table :=
  ((dottedShop.toSchema [] []).holder? ⟨"sales", "orders", "id"⟩).getD default

def salesOrder : Resource :=
  (Resource.compile (dottedShop.toSchema [] []) salesTable).toOption.get (by decide +kernel)

/-- The schema is valid. The orders of `shop.eu` are not compiled, as their path is looked up
in `shop`, and the orders of `sales` are joined with a table of `shop` and not with the
customers of `shop.eu`, to which they relate. -/
theorem dotted_path_misread :
    (dottedShop.toSchema [] []).validate = .ok () ∧
      (europeanTable ∈ (dottedShop.toSchema [] []).tables ∧
        Resource.compile (dottedShop.toSchema [] []) europeanTable =
          .error (.missingReference "table" "shop.eu.orders")) ∧
      salesTable ∈ (dottedShop.toSchema [] []).tables ∧
      Resource.compile (dottedShop.toSchema [] []) salesTable = .ok salesOrder ∧
      salesTable.columns.filterMap Column.relation = [⟨"shop.eu", "customers", "id"⟩] ∧
      ((dottedShop.toSchema [] []).holder? ⟨"shop.eu", "customers", "id"⟩).map
        (fun table => (table.database, table.name)) = some ("shop.eu", "customers") ∧
      salesOrder.tables.map (fun table => (table.database, table.name)) =
        [("sales", "orders"), ("shop", "eu.customers")] := by
  refine ⟨by decide +kernel, ⟨by decide +kernel, ?_⟩, by decide +kernel, eq_ok_get _,
    by decide +kernel, by decide +kernel, by decide +kernel⟩
  have hpath : europeanTable.qualifiedName = "shop.eu.orders" := by decide +kernel
  have hmissing : ((dottedShop.toSchema [] []).table? europeanTable.qualifiedName).isNone = true := by
    decide +kernel
  rw [Resource.compile, if_pos hmissing, hpath]

end TableApi
