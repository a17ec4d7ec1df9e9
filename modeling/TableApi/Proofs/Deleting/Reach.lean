import TableApi.Proofs.Deleting.Held
import TableApi.Proofs.Deleting.KeyColumns
import TableApi.Proofs.Introspection

/-!
# How far a deletion reaches

A DELETE equates the primary-key columns that its resource knows of. It is meant to
reach one row, and it does when these are all columns of the key. Two things can
keep a key column from the resource: a policy that excludes it, and an entry that is
written over it when its table is mounted.

`deletes_pinpoint_iff` says that nothing else can. `items_by_order` shows a policy
that hides half of a key: what is deleted is then every row that has the other half.
-/

namespace TableApi

/-! ## Rows that a deletion matches -/

/-- A row, as values under the names of columns, has the values that a DELETE equates.
Nothing equals null. -/
def Deletion.Matches (deletion : Deletion) (row : String → Json) : Prop :=
  ∀ cell ∈ deletion.key, cell.2 ≠ .null ∧ row cell.1 = cell.2

/-- A DELETE matches at most one row of a table in which no two rows agree on the
key columns. -/
def Deletion.Pinpoints (deletion : Deletion) (keyNames : List String) : Prop :=
  ∀ rows : Set (String → Json),
    (∀ row ∈ rows, ∀ other ∈ rows, (∀ name ∈ keyNames, row name = other name) → row = other) →
    ∀ row ∈ rows, ∀ other ∈ rows, deletion.Matches row → deletion.Matches other → row = other

/-- A DELETE that leaves a key column open matches two rows that differ in it alone. -/
theorem Deletion.not_pinpoints {deletion : Deletion} (hnodup : (deletion.key.map Prod.fst).Nodup)
    (hvalues : ∀ cell ∈ deletion.key, cell.2 ≠ .null) {keyNames : List String} {name : String}
    (hname : name ∈ keyNames) (hopen : name ∉ deletion.key.map Prod.fst) :
    ¬ deletion.Pinpoints keyNames := by
  intro hpinpoints
  let row : String → Json := fun n => (Entries.get? deletion.key n).getD .null
  let other : String → Json := fun n => if n = name then .bool true else row n
  have hrow : deletion.Matches row := by
    intro cell hcell
    refine ⟨hvalues cell hcell, ?_⟩
    show (Entries.get? deletion.key cell.1).getD .null = cell.2
    rw [Entries.get?_of_mem hnodup hcell]
    rfl
  have hother : deletion.Matches other := by
    intro cell hcell
    have hne : cell.1 ≠ name := fun heq => hopen (heq ▸ List.mem_map.2 ⟨cell, hcell, rfl⟩)
    refine ⟨hvalues cell hcell, ?_⟩
    show (if cell.1 = name then _ else row cell.1) = cell.2
    rw [if_neg hne]
    exact (hrow cell hcell).2
  have hdiffer : row name ≠ other name := by
    show (Entries.get? deletion.key name).getD .null ≠ if name = name then _ else _
    rw [if_pos rfl, (Entries.get?_eq_none_iff _ _).2 hopen]
    exact fun h => by cases h
  have hunique : ∀ a ∈ ({row, other} : Set (String → Json)),
      ∀ b ∈ ({row, other} : Set (String → Json)),
        (∀ n ∈ keyNames, a n = b n) → a = b := by
    rintro a (rfl | rfl) b (rfl | rfl) hagree
    · rfl
    · exact absurd (hagree name hname) hdiffer
    · exact absurd (hagree name hname).symm hdiffer
    · rfl
  exact hdiffer (congrFun (hpinpoints _ hunique row (.inl rfl) other (.inr rfl) hrow hother) name)

/-- A DELETE matches at most one row exactly when it equates the whole key, or when it
equates a column with null and so matches none. -/
theorem Deletion.pinpoints_iff {deletion : Deletion}
    (hnodup : (deletion.key.map Prod.fst).Nodup) {keyNames : List String} :
    deletion.Pinpoints keyNames ↔
      (∃ cell ∈ deletion.key, cell.2 = .null) ∨
        ∀ name ∈ keyNames, name ∈ deletion.key.map Prod.fst := by
  constructor
  · intro hpinpoints
    by_cases hnull : ∃ cell ∈ deletion.key, cell.2 = .null
    · exact .inl hnull
    · right
      intro name hname
      by_contra hopen
      have hvalues : ∀ cell ∈ deletion.key, cell.2 ≠ .null :=
        fun cell hcell heq => hnull ⟨cell, hcell, heq⟩
      exact not_pinpoints hnodup hvalues hname hopen hpinpoints
  · rintro (⟨cell, hcell, hnull⟩ | hwhole) rows hunique row hrow other hother hmatches hmatchesOther
    · exact absurd hnull (hmatches cell hcell).1
    · refine hunique row hrow other hother fun name hname => ?_
      obtain ⟨cell, hcell, rfl⟩ := List.mem_map.1 (hwhole name hname)
      rw [(hmatches cell hcell).2, (hmatchesOther cell hcell).2]

/-! ## The key that a deletion equates -/

/-- The rows of a table that the catalog marks as its primary key. -/
def Catalog.keyRows (catalog : Catalog) (table : Table) : List CatalogColumn :=
  (catalog.rowsOf table.database table.name).filter fun row => row.key == "PRI"

namespace Resource

variable {schema : Schema} {root : Table} {resource : Resource} {pack : Entries Json}

/-- Every row that a pack holds is of a table of the schema, as it was mounted. -/
theorem mounted_of_held (hroot : root ∈ schema.tables)
    (hcompile : Resource.compile schema root = .ok resource) {row : HeldRow}
    (hrow : row ∈ resource.held pack) :
    ∃ found ∈ schema.tables, ∃ mounted, schema.Mounts found mounted ∧
      row.table = mounted.root.table ∧ row.shape = Slot.shape mounted.entries := by
  have hmount := mountTable_of_compile hcompile
  rcases List.mem_cons.1 hrow with rfl | hrow
  · exact ⟨root, hroot, resource.toMounted, ⟨_, _, _, _, hmount⟩, rfl, rfl⟩
  · obtain ⟨placed, hplace, htable⟩ := Shape.place_of_heldBelow hrow
    obtain ⟨found, below, path, hfound, hbelow, hplaced, hshape⟩ :=
      Schema.mounts_of_place hmount hplace
    exact ⟨found, Schema.mem_tables_of_table? hfound, below, hbelow, by rw [htable, hplaced], hshape⟩

end Resource

theorem Schema.Mounts.root_eq {schema : Schema} {table : Table} {mounted : Mounted}
    (h : schema.Mounts table mounted) :
    mounted.root.table.columns = table.columns ∧ mounted.root.table.database = table.database ∧
      mounted.root.table.name = table.name := by
  obtain ⟨hops, path, index, lead, h⟩ := h
  obtain ⟨-, -, hops', grown, -, -, rfl⟩ := mountTable_ok h
  exact ⟨rfl, rfl, rfl⟩

/-- The primary key of a mounted table that reflects the catalog: the rows of the
catalog's key that no policy excludes and nothing is written over. -/
theorem Schema.Mounts.mem_keyColumns_iff {schema : Schema} {table : Table} {mounted : Mounted}
    (h : schema.Mounts table mounted) {catalog : Catalog} {policies : List AccessPolicy}
    (hreflects : table.Reflects catalog policies) {row : CatalogColumn}
    (hrow : row ∈ catalog.keyRows table) :
    row.name ∈ (Slot.shape mounted.entries).keyColumns.map Column.name ↔
      row.excludedBy policies = false ∧ schema.shadows row.name table.columns = false := by
  obtain ⟨hrow, hkey⟩ := List.mem_filter.1 hrow
  obtain ⟨hops, path, index, lead, h⟩ := h
  obtain ⟨-, -, hops', grown, -, hgrown, rfl⟩ := mountTable_ok h
  rw [hreflects.visibleColumns_eq] at hgrown
  have hnames : ∀ column ∈ table.columns,
      column.qualifiedName = table.database ++ "." ++ table.name ++ "." ++ column.name :=
    fun column hcolumn => hreflects.qualifiedName_eq hcolumn
  rw [mem_keyColumns_mountColumns hgrown hnames, (lastPrimary?_iff hnames row.name).2,
    hreflects.any_primary_iff hrow (beq_iff_eq.1 hkey)]

/-- The names of a mounted table's primary key differ. -/
theorem Schema.Mounts.nodup_keyColumns {schema : Schema} {table : Table} {mounted : Mounted}
    (h : schema.Mounts table mounted) {catalog : Catalog} {policies : List AccessPolicy}
    (hreflects : table.Reflects catalog policies) :
    ((Slot.shape mounted.entries).keyColumns.map Column.name).Nodup := by
  obtain ⟨hops, path, index, lead, h⟩ := h
  have hkeyed := keyed_of_mountTable h
  obtain ⟨-, -, hops', grown, -, hgrown, rfl⟩ := mountTable_ok h
  rw [hreflects.visibleColumns_eq] at hgrown
  -- A name makes up the qualified name, so two names differ where these do.
  have hqualified : ∀ column ∈ (Slot.shape (Entries.ofList grown.entries)).keyColumns,
      column.qualifiedName = table.database ++ "." ++ table.name ++ "." ++ column.name := by
    intro column hcolumn
    obtain ⟨source, hfound, rfl⟩ :=
      (mem_columns_mountColumns hgrown).1 (List.mem_of_mem_filter hcolumn)
    have hsource := (mem_written (List.mem_reverse.1 (Entries.mem_of_get? hfound))).1
    have hname : source.qualifiedName = _ := hreflects.qualifiedName_eq hsource
    exact hname
  have hnodup : ((Slot.shape (Entries.ofList grown.entries)).keyColumns.map
      Column.qualifiedName).Nodup :=
    hkeyed.nodup_qualifiedNames.sublist (List.filter_sublist.map _)
  have hmap : ((Slot.shape (Entries.ofList grown.entries)).keyColumns.map Column.name).map
        (fun name => table.database ++ "." ++ table.name ++ "." ++ name) =
      (Slot.shape (Entries.ofList grown.entries)).keyColumns.map Column.qualifiedName := by
    rw [List.map_map]
    exact (List.map_congr_left hqualified).symm
  rw [← hmap] at hnodup
  exact hnodup.of_map _

/-- **How far a deletion reaches.** A DELETE equates a column of its table's primary
key exactly when no policy excludes the column and nothing is written over it. So it
matches at most one row of the table when this holds of the whole key, and else only
where a value is null and it matches none. -/
theorem Resource.deletes_pinpoint_iff {catalog : Catalog} {policies : List AccessPolicy}
    {aliases : Entries (List String)} {root : Table}
    (hroot : root ∈ (catalog.toSchema policies aliases).tables) {resource : Resource}
    (hcompile : Resource.compile (catalog.toSchema policies aliases) root = .ok resource)
    {pack : Entries Json} {batch : List Deletion} (hdeletes : resource.deletes pack = .ok batch)
    {deletion : Deletion} (hmem : deletion ∈ batch) :
    (∀ row ∈ catalog.keyRows deletion.table, row.name ∈ deletion.key.map Prod.fst ↔
      row.excludedBy policies = false ∧
        (catalog.toSchema policies aliases).shadows row.name deletion.table.columns = false) ∧
    (deletion.Pinpoints ((catalog.keyRows deletion.table).map CatalogColumn.name) ↔
      (∃ cell ∈ deletion.key, cell.2 = .null) ∨
        ∀ row ∈ catalog.keyRows deletion.table, row.excludedBy policies = false ∧
          (catalog.toSchema policies aliases).shadows row.name deletion.table.columns = false) := by
  obtain ⟨held, hheld, htable, -, hkey⟩ := exists_of_forall₂_right (deletedBy_deletes hdeletes) hmem
  obtain ⟨found, hfound, mounted, hmounts, hmounted, hshape⟩ := mounted_of_held hroot hcompile hheld
  have hreflects := catalog.reflects_toSchema policies aliases found hfound
  have hnames : deletion.key.map Prod.fst =
      (Slot.shape mounted.entries).keyColumns.map Column.name := by
    rw [Shape.names_keyCells hkey, hshape]
  obtain ⟨hcolumns, hdatabase, hname⟩ := hmounts.root_eq
  have hcovers : ∀ row ∈ catalog.keyRows deletion.table, row.name ∈ deletion.key.map Prod.fst ↔
      row.excludedBy policies = false ∧
        (catalog.toSchema policies aliases).shadows row.name deletion.table.columns = false := by
    intro row hrow
    rw [htable, hmounted] at hrow ⊢
    rw [hnames, hcolumns]
    exact hmounts.mem_keyColumns_iff hreflects (by rwa [Catalog.keyRows, ← hdatabase, ← hname])
  refine ⟨hcovers, ?_⟩
  rw [Deletion.pinpoints_iff (hnames ▸ hmounts.nodup_keyColumns hreflects), List.forall_mem_map]
  exact or_congr_right (forall₂_congr hcovers)

/-! ## Items that share an order -/

/-- Notes are about an item, and an item is a line of an order. -/
def annotatedShop : Catalog where
  databases := ["shop"]
  tables := [("shop", "items"), ("shop", "notes")]
  columns := [
    ⟨"shop", "items", "sku", "varchar(16)", false, "UNI", false⟩,
    ⟨"shop", "items", "order_no", "int(11)", false, "PRI", false⟩,
    ⟨"shop", "items", "line", "int(11)", false, "PRI", false⟩,
    ⟨"shop", "notes", "id", "int(11)", false, "PRI", false⟩,
    ⟨"shop", "notes", "item_sku", "varchar(16)", false, "MUL", false⟩]
  links := [⟨⟨"shop", "notes", "item_sku"⟩, ⟨"shop", "items", "sku"⟩⟩]

/-- The table of notes under some policies. -/
def noteTable (policies : List AccessPolicy) : Table :=
  ((annotatedShop.toSchema policies []).table? "shop.notes").getD default

/-- Notes as they are served when everything is shown. -/
def noteResource : Resource :=
  (Resource.compile (annotatedShop.toSchema [] []) (noteTable [])).toOption.get (by decide +kernel)

theorem compile_noteTable :
    Resource.compile (annotatedShop.toSchema [] []) (noteTable []) = .ok noteResource :=
  eq_ok_get _

def notePack (line : List (String × Json)) : Entries Json :=
  [("shop.notes.id", .int 1),
    ("shop.notes.item_sku_branch", .obj ([("shop.items.sku", .str "A-1"),
      ("shop.items.order_no", .int 7)] ++ line))]

/-- The deletions of a note and its item when everything is shown. -/
def noteBatch : List Deletion :=
  (noteResource.deletes (notePack [("shop.items.line", .int 2)])).toOption.get (by decide +kernel)

/-- Where the whole key is shown, the one item of a note is deleted. -/
theorem item_by_key :
    ∃ deletion ∈ noteBatch, deletion.table.name = "items" ∧
      deletion.key = [("order_no", .int 7), ("line", .int 2)] ∧
      (annotatedShop.keyRows deletion.table).map CatalogColumn.name = ["order_no", "line"] ∧
      deletion.Pinpoints ["order_no", "line"] := by
  have hroot : noteTable [] ∈ (annotatedShop.toSchema [] []).tables := by decide +kernel
  have hbatch : noteResource.deletes (notePack [("shop.items.line", .int 2)]) = .ok noteBatch :=
    eq_ok_get _
  obtain ⟨deletion, hmem, htable, hkey, hkeyRows, hwhole⟩ : ∃ deletion ∈ noteBatch,
      deletion.table.name = "items" ∧
      deletion.key = [("order_no", .int 7), ("line", .int 2)] ∧
      (annotatedShop.keyRows deletion.table).map CatalogColumn.name = ["order_no", "line"] ∧
      ∀ row ∈ annotatedShop.keyRows deletion.table, row.excludedBy [] = false ∧
        (annotatedShop.toSchema [] []).shadows row.name deletion.table.columns = false := by
    decide +kernel
  refine ⟨deletion, hmem, htable, hkey, hkeyRows, ?_⟩
  rw [← hkeyRows]
  exact (Resource.deletes_pinpoint_iff hroot compile_noteTable hbatch hmem).2.2 (.inr hwhole)

/-- Lines of an order are hidden. -/
def hideLines : List AccessPolicy :=
  [{ subject := "shop.items.line", excluded := true }]

/-- Notes as they are served when lines are hidden. -/
def blindResource : Resource :=
  (Resource.compile (annotatedShop.toSchema hideLines []) (noteTable hideLines)).toOption.get
    (by decide +kernel)

/-- The deletions of a note and its item when lines are hidden. -/
def blindBatch : List Deletion :=
  (blindResource.deletes (notePack [])).toOption.get (by decide +kernel)

/-- Where half of the key is hidden, deleting a note deletes every item of the order. -/
theorem items_by_order :
    noteTable hideLines ∈ (annotatedShop.toSchema hideLines []).tables ∧
      Resource.compile (annotatedShop.toSchema hideLines []) (noteTable hideLines) =
        .ok blindResource ∧
      (blindResource.unpack [.int 1, .str "A-1", .int 7]).bind blindResource.packOf =
        .ok (notePack []) ∧
      blindResource.deletes (notePack []) = .ok blindBatch ∧
      ∃ deletion ∈ blindBatch, deletion.table.name = "items" ∧
        deletion.key = [("order_no", .int 7)] ∧
        (annotatedShop.keyRows deletion.table).map CatalogColumn.name = ["order_no", "line"] ∧
        ¬ deletion.Pinpoints ["order_no", "line"] := by
  refine ⟨by decide +kernel, eq_ok_get _, by decide +kernel, eq_ok_get _, ?_⟩
  obtain ⟨deletion, hmem, htable, hkey, hkeyRows⟩ : ∃ deletion ∈ blindBatch,
      deletion.table.name = "items" ∧ deletion.key = [("order_no", .int 7)] ∧
      (annotatedShop.keyRows deletion.table).map CatalogColumn.name = ["order_no", "line"] := by
    decide +kernel
  have hvalues : ∀ cell ∈ deletion.key, cell.2 ≠ .null := by
    rw [hkey]
    decide
  refine ⟨deletion, hmem, htable, hkey, hkeyRows, ?_⟩
  exact Deletion.not_pinpoints (by rw [hkey]; decide) hvalues
    (List.mem_cons_of_mem _ List.mem_cons_self) (by rw [hkey]; decide)

end TableApi
