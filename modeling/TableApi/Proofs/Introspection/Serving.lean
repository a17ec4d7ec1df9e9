import TableApi.Proofs.Introspection.Validity
import TableApi.Proofs.Faithful
import Mathlib.Data.Finset.Max

/-!
# Introspected schemas can be served

A table is kept out of the API when compiling it meets one of the limits of a resource
(`SchemaFault.KeepsOut`); every other fault keeps all tables out. Introspection never leads
to another fault, whatever foreign keys the catalog lists (`Catalog.introspected_served`):
each look-up succeeds, as the schema is valid, and a table with columns is mounted with a
column that nothing is written over, so that a resource has columns of its own
(`Resource.leaves_ne_nil`).
-/

namespace TableApi

/-- The faults that keep one table from being served and no other. -/
inductive SchemaFault.KeepsOut : SchemaFault → Prop
  | cyclic (chain : String) : KeepsOut (.cyclic chain)
  | tooDeep : KeepsOut (.depthExceeded maxHops)
  | tooWide : KeepsOut (.tooManyTables maxTables)
  | ambiguous (resource shared : String) : KeepsOut (.ambiguousName resource shared)

/-! ## Mounting ends at a limit or not at all -/

namespace Schema

variable {schema : Schema} {table : Table}

/-- In a valid schema without dots in the names of databases every relation resolves. -/
theorem Valid.liveTarget?_ok (hvalid : schema.Valid)
    (hplain : ∀ database ∈ schema.databases, '.' ∉ database.name.toList)
    (htable : table ∈ schema.tables) {column : Column} (hcolumn : column ∈ table.visibleColumns)
    {fault : SchemaFault} : schema.liveTarget? column ≠ .error fault := by
  intro h
  obtain ⟨ref, hdotted, -⟩ := hvalid.dotted_of_error htable hcolumn h
  exact hvalid.not_dotted hplain htable hdotted

/-- Where every relation resolves, mounting fails only at a limit. -/
theorem failsOnly_mountTable (hlive : ∀ table ∈ schema.tables, ∀ column ∈ table.visibleColumns,
    ∀ fault, schema.liveTarget? column ≠ .error fault) (htable : table ∈ schema.tables)
    {hops : Nat} {path : List String} {index : Nat} {lead : String} :
    FailsOnly SchemaFault.KeepsOut (schema.mountTable hops path index lead table) := by
  -- The induction is on the hops: each branch is mounted with one less.
  induction hops generalizing path index lead table with
  | zero =>
    intro fault h
    rcases mountTable_error h with ⟨-, rfl⟩ | ⟨-, rfl⟩ | ⟨-, rfl⟩ | ⟨_, hhops, -⟩
    · exact .cyclic _
    · exact .tooDeep
    · exact .tooWide
    · cases hhops
  | succ hops ih =>
    intro fault h
    rcases mountTable_error h with ⟨-, rfl⟩ | ⟨hhops, -⟩ | ⟨-, rfl⟩ | ⟨_, hhops, hcolumns⟩
    · exact .cyclic _
    · cases hhops
    · exact .tooWide
    · obtain rfl := Nat.succ.inj hhops
      rcases missing_of_mountColumns hcolumns with ⟨column, hcolumn, htarget⟩ |
        ⟨_, _, found, hfound, hbelow⟩
      · exact absurd htarget (hlive table htable column hcolumn fault)
      · exact ih hfound fault hbelow

/-! ## A column that stays -/

/-- What is written without a column is a branch. -/
theorem branch_of_mem_written {columns : List Column} {key : String}
    (h : (key, none) ∈ schema.written columns) : ∃ column ∈ columns, key = column.branchKey := by
  induction columns with
  | nil => cases h
  | cons first rest ih =>
    rw [written, List.cons_append, List.mem_cons, List.mem_append] at h
    rcases h with heq | h | h
    · cases heq
    · split at h
      · exact ⟨first, List.mem_cons_self, congrArg Prod.fst (List.mem_singleton.1 h)⟩
      · cases h
    · obtain ⟨column, hcolumn, hkey⟩ := ih h
      exact ⟨column, List.mem_cons_of_mem _ hcolumn, hkey⟩

/-- A mounted table with visible columns has a column left: no branch is written over one
with the shortest name. -/
theorem columns_mountTable_ne_nil {hops : Nat} {path : List String} {index : Nat} {lead : String}
    {mounted : Mounted} (h : schema.mountTable hops path index lead table = .ok mounted)
    (hcolumns : table.visibleColumns ≠ []) : (Slot.shape mounted.entries).columns ≠ [] := by
  obtain ⟨-, -, hops', grown, -, hgrown, rfl⟩ := mountTable_ok h
  obtain ⟨shortest, hshortest, hminimal⟩ :=
    Finset.exists_min_image table.visibleColumns.toFinset
      (fun column => column.qualifiedName.length) (List.toFinset_nonempty_iff _ |>.2 hcolumns)
  rw [List.mem_toFinset] at hshortest
  have hkey : shortest.qualifiedName ∈
      Entries.keys (schema.written table.visibleColumns).reverse := by
    rw [Entries.keys, List.map_reverse, List.mem_reverse]
    exact mem_keys_written.2 ⟨shortest, hshortest, .inl rfl⟩
  obtain ⟨last, hlast⟩ := Option.ne_none_iff_exists'.1
    (mt (Entries.get?_eq_none_iff _ _).1 (not_not_intro hkey))
  have hwritten := List.mem_reverse.1 (Entries.mem_of_get? hlast)
  cases last with
  | none =>
    obtain ⟨column, hcolumn, hbranch⟩ := branch_of_mem_written hwritten
    have hshorter := hminimal column (List.mem_toFinset.2 hcolumn)
    rw [hbranch, Column.branchKey, branchKey, String.length_append] at hshorter
    have hending : "_branch".length = 7 := rfl
    omega
  | some column =>
    have hname := (mem_written hwritten).2
    rw [hname] at hlast
    exact List.ne_nil_of_mem ((mem_columns_mountColumns hgrown).2 ⟨column, hlast, rfl⟩)

end Schema

/-- A shape has columns without a branch when it and all shapes below it have columns. -/
theorem Shape.leaves_ne_nil {shape : Shape} (h : shape.columns ≠ [])
    (hbelow : ∀ place ∈ shape.places, place.2.columns ≠ []) : shape.leaves ≠ [] := by
  induction shape with
  | nil => exact absurd rfl h
  | leaf column rest => exact List.cons_ne_nil _ _
  | branch column placed inner rest ihInner ihRest =>
    have hinner : inner.leaves ≠ [] := by
      refine ihInner (hbelow (placed, inner) List.mem_cons_self) fun place hplace => ?_
      exact hbelow place (List.mem_cons_of_mem _ (List.mem_append_left _ hplace))
    intro hleaves
    exact hinner (List.append_eq_nil_iff.1 hleaves).1

namespace Resource

variable {schema : Schema} {root : Table}

/-- Mounted over a schema in which every table has visible columns, a resource has columns. -/
theorem leaves_ne_nil (hcolumns : ∀ table ∈ schema.tables, table.visibleColumns ≠ [])
    (hroot : root ∈ schema.tables) {hops : Nat} {path : List String} {index : Nat} {lead : String}
    {mounted : Mounted} (h : schema.mountTable hops path index lead root = .ok mounted) :
    (Slot.shape mounted.entries).leaves ≠ [] := by
  refine Shape.leaves_ne_nil (Schema.columns_mountTable_ne_nil h (hcolumns root hroot)) ?_
  rintro ⟨placed, inner⟩ hplace
  obtain ⟨found, below, tablePath, hfound, ⟨_, _, _, _, hbelow⟩, -, rfl⟩ :=
    Schema.mounts_of_place h hplace
  exact Schema.columns_mountTable_ne_nil hbelow
    (hcolumns found (Schema.mem_tables_of_table? hfound))

/-- A mounted table with columns makes a resource, unless two of them share a name. -/
theorem failsOnly_ofMounted {mounted : Mounted} (h : (Slot.shape mounted.entries).leaves ≠ []) :
    FailsOnly SchemaFault.KeepsOut (ofMounted mounted) := by
  intro fault hfault
  unfold ofMounted at hfault
  simp only at hfault
  split at hfault
  · next hempty => exact absurd (List.isEmpty_iff.1 hempty) h
  · split at hfault
    · cases hfault
      exact .ambiguous _ _
    · cases hfault

/-- Over a valid schema without dots in the names of databases, compiling a table whose path
is found fails only in ways that keep the table out. -/
theorem failsOnly_compile (hvalid : schema.Valid)
    (hplain : ∀ database ∈ schema.databases, '.' ∉ database.name.toList)
    (hcolumns : ∀ table ∈ schema.tables, table.visibleColumns ≠ []) (hroot : root ∈ schema.tables)
    (hfound : (schema.table? root.qualifiedName).isSome = true) :
    FailsOnly SchemaFault.KeepsOut (compile schema root) := by
  unfold compile
  rw [if_neg (by simp [Option.isSome_iff_ne_none.1 hfound])]
  refine FailsOnly.bind ?_ fun mounted hmounted => ?_
  · refine Schema.failsOnly_mountTable (fun table htable column hcolumn fault => ?_) hroot
    exact hvalid.liveTarget?_ok hplain htable hcolumn
  · exact failsOnly_ofMounted (leaves_ne_nil hcolumns hroot hmounted)

end Resource

/-- When no fault keeps more than its own table out, the resources are those that compile. -/
theorem Schema.resourcesOf_eq {schema : Schema} {tables : List Table}
    (h : ∀ table ∈ tables, FailsOnly SchemaFault.KeepsOut (Resource.compile schema table)) :
    schema.resourcesOf tables =
      .ok (tables.filterMap fun table => (Resource.compile schema table).toOption) := by
  induction tables with
  | nil => rfl
  | cons table rest ih =>
    obtain ⟨htable, hrest⟩ := List.forall_mem_cons.1 h
    rw [resourcesOf, ih hrest]
    cases hcompile : Resource.compile schema table with
    | ok resource =>
      rw [List.filterMap_cons_some (by rw [hcompile]; rfl)]
      rfl
    | error fault =>
      have hskips : fault.skipsResource = true := by
        cases htable fault hcompile <;> rfl
      rw [List.filterMap_cons_none (by rw [hcompile]; rfl)]
      exact if_pos hskips

/-- **Introspected schemas can be served.** Whatever foreign keys a catalog lists, and under
all policies and aliases that leave columns to every table that they leave in, the schema is
valid, each table is compiled or kept out by a limit of its own, and the resources are those
of the tables that are compiled. No name of a database may have a dot in it. -/
theorem Catalog.introspected_served {catalog : Catalog} {policies : List AccessPolicy}
    {aliases : Entries (List String)} {schema : Schema}
    (hschema : schema = catalog.toSchema policies aliases)
    (hplain : ∀ name ∈ catalog.databases, '.' ∉ name.toList)
    (hcolumns : ∀ table ∈ schema.tables, table.columns ≠ []) :
    schema.validate = .ok () ∧
      schema.resources = .ok (schema.servedTables.filterMap fun table =>
        (Resource.compile schema table).toOption) ∧
      ∀ root ∈ schema.tables, FailsOnly SchemaFault.KeepsOut (Resource.compile schema root) := by
  subst hschema
  have hvalid := valid_toSchema catalog policies aliases
  have hcompile : ∀ root ∈ (catalog.toSchema policies aliases).tables,
      FailsOnly SchemaFault.KeepsOut (Resource.compile (catalog.toSchema policies aliases) root) := by
    intro root hroot
    refine Resource.failsOnly_compile hvalid (fun _ => plain_of_mem hplain) ?_ hroot
      (isSome_table? hplain hroot)
    intro table htable
    rw [(reflects_toSchema catalog policies aliases table htable).visibleColumns_eq]
    exact hcolumns table htable
  have hvalidate := Schema.validate_ok_iff.2 hvalid
  refine ⟨hvalidate, ?_, hcompile⟩
  unfold Schema.resources
  rw [hvalidate]
  exact Schema.resourcesOf_eq fun table htable =>
    hcompile table (Schema.servedTables_subset htable)

/-! ## An office with tangled foreign keys -/

/-- Staff and teams refer to each other, one of them twice. A badge refers to a room that is
excluded, to a visitor that is not there, and to a user of the database server. -/
def tangledOffice : Catalog where
  databases := ["office", "mysql"]
  tables := [("office", "rooms"), ("office", "staff"), ("office", "teams"), ("office", "badges"),
    ("mysql", "user")]
  columns := [
    ⟨"office", "rooms", "id", "int(11)", false, "PRI", false⟩,
    ⟨"office", "staff", "id", "int(11)", false, "PRI", false⟩,
    ⟨"office", "staff", "team_id", "int(11)", false, "MUL", false⟩,
    ⟨"office", "teams", "id", "int(11)", false, "PRI", false⟩,
    ⟨"office", "teams", "lead_id", "int(11)", false, "MUL", false⟩,
    ⟨"office", "badges", "id", "int(11)", false, "PRI", false⟩,
    ⟨"office", "badges", "room_id", "int(11)", false, "MUL", false⟩,
    ⟨"office", "badges", "visitor_id", "int(11)", true, "MUL", false⟩,
    ⟨"office", "badges", "user_id", "int(11)", true, "MUL", false⟩,
    ⟨"mysql", "user", "id", "int(11)", false, "PRI", false⟩]
  links := [⟨⟨"office", "staff", "team_id"⟩, ⟨"office", "teams", "id"⟩⟩,
    ⟨⟨"office", "teams", "lead_id"⟩, ⟨"office", "staff", "id"⟩⟩,
    ⟨⟨"office", "staff", "team_id"⟩, ⟨"office", "teams", "id"⟩⟩,
    ⟨⟨"office", "badges", "room_id"⟩, ⟨"office", "rooms", "id"⟩⟩,
    ⟨⟨"office", "badges", "visitor_id"⟩, ⟨"office", "visitors", "id"⟩⟩,
    ⟨⟨"office", "badges", "user_id"⟩, ⟨"mysql", "user", "id"⟩⟩]

def tangledSchema : Schema :=
  tangledOffice.toSchema [{ subject := "office.rooms", excluded := true }]
    [("office.staff", ["people"])]

/-- Badges are served without a branch; staff and teams are kept out by their cycle. -/
theorem badges_served :
    (∀ name ∈ tangledOffice.databases, '.' ∉ name.toList) ∧
      (∀ table ∈ tangledSchema.tables, table.columns ≠ []) ∧
      tangledSchema.validate = .ok () ∧
      (∀ root ∈ tangledSchema.tables,
        FailsOnly SchemaFault.KeepsOut (Resource.compile tangledSchema root)) ∧
      tangledSchema.tables.map Table.name = ["staff", "teams", "badges"] ∧
      ∃ badges, tangledSchema.resources = .ok [badges] ∧ badges.name = "office_badges" ∧
        badges.joins = [] := by
  have hschema : tangledSchema = tangledOffice.toSchema
      [{ subject := "office.rooms", excluded := true }] [("office.staff", ["people"])] := rfl
  have hplain : ∀ name ∈ tangledOffice.databases, '.' ∉ name.toList := by decide +kernel
  have hcolumns : ∀ table ∈ tangledSchema.tables, table.columns ≠ [] := by decide +kernel
  obtain ⟨hvalid, hresources, hcompile⟩ := Catalog.introspected_served hschema hplain hcolumns
  refine ⟨hplain, hcolumns, hvalid, hcompile, by decide +kernel, ?_⟩
  have hnames : (tangledSchema.servedTables.filterMap fun table =>
      (Resource.compile tangledSchema table).toOption).map
        (fun resource => (resource.name, resource.joins)) = [("office_badges", [])] := by
    decide +kernel
  obtain ⟨badges, hbadges, hshown⟩ := List.map_eq_singleton_iff.1 hnames
  rw [hresources, hbadges]
  exact ⟨badges, rfl, congrArg Prod.fst hshown, congrArg Prod.snd hshown⟩

end TableApi
