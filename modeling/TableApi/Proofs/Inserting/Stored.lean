import TableApi.Proofs.Contract

/-!
# What inserting a pack stores

A pack is a tree of objects, one for each row: the root's, and one under each branch key
that a column of a row above uses. `Resource.packedRows` lists them, those of a branch
before the row that the branch belongs to. `Resource.inserts_store_pack` says that
inserting the pack of a new row stores each of them in its table, column by column.

The value of a foreign key with a branch is not in its own object. Inserting fetches it
from the objects below, and the statement of the branch's row is built apart from that;
`PackedRow.Binds` says that both come to the same value, however long the chain of foreign
keys is.
-/

namespace TableApi

/-- A row of a pack: the branch keys that lead to it, its place, its shape and its object. -/
structure PackedRow where
  path : List String
  placed : Placed
  shape : Shape
  object : Entries Json

/-- The rows below a row, in the order of its columns, each behind the rows below it. -/
def Shape.rowsBelow (path : List String) (pack : Entries Json) : Shape → List PackedRow
  | nil => []
  | leaf _ rest => rest.rowsBelow path pack
  | branch column placed inner rest =>
    (match pack.get? column.branchKey with
      | some (.obj nested) =>
        inner.rowsBelow (path ++ [column.branchKey]) nested ++
          [⟨path ++ [column.branchKey], placed, inner, nested⟩]
      | _ => []) ++
    rest.rowsBelow path pack

/-- All rows of a pack, the root's last. -/
def Resource.packedRows (resource : Resource) (pack : Entries Json) : List PackedRow :=
  resource.shape.rowsBelow [] pack ++ [⟨[], resource.root, resource.shape, pack⟩]

namespace PackedRow

/-- The value that a statement binds for a column of the row at a path: the entry of the
row's object or, where this has an object for the column's branch instead, the value that
the statement of that object's row binds to the referenced column. -/
inductive Binds (stored : List (PackedRow × Insertion)) (path : List String)
    (object : Entries Json) (column : Column) (value : Json) : Prop
  | own (hvalue : object.get? column.qualifiedName = some value)
  | referenced {below insertion target} (hown : object.get? column.qualifiedName = none)
      (hbranch : object.get? column.branchKey = some (.obj below.object))
      (hpath : below.path = path ++ [column.branchKey]) (hstored : (below, insertion) ∈ stored)
      (htarget : column.relation = some target)
      (hvalue : Entries.get? insertion.cells target.column = some value)

/-- Cells have the names of columns, in order, and the values that are bound for them. -/
def Fill (stored : List (PackedRow × Insertion)) (path : List String) (object : Entries Json)
    (columns : List Column) (cells : List (String × Json)) : Prop :=
  List.Forall₂ (fun column cell => cell.1 = column.name ∧ Binds stored path object column cell.2)
    columns cells

/-- A statement stores a row in the table of its number: it names every visible column of
the table, in order, with the value of the row. -/
structure StoredBy (tables : List Table) (stored : List (PackedRow × Insertion))
    (row : PackedRow) (insertion : Insertion) : Prop where
  table : tables[row.placed.index]? = some insertion.table
  cells : Fill stored row.path row.object insertion.table.visibleColumns insertion.cells

/-- Mounting a column does not change what is bound for it. -/
theorem fill_mounted {stored : List (PackedRow × Insertion)} {path : List String}
    {object : Entries Json} {columns : List Column} {cells : List (String × Json)}
    {owner lead : String}
    (h : Fill stored path object (columns.map fun column => column.mounted owner lead) cells) :
    Fill stored path object columns cells := by
  refine (List.forall₂_map_left_iff.1 h).imp fun column cell hcell => ⟨hcell.1, ?_⟩
  cases hcell.2 with
  | own hvalue => exact .own hvalue
  | referenced hown hbranch hpath hstored htarget hvalue =>
    exact .referenced hown hbranch hpath hstored htarget hvalue

end PackedRow

namespace Shape

variable {shape inner rest : Shape} {column : Column} {placed : Placed}
  {pack nested : Entries Json} {path : List String}

theorem rowsBelow_row (h : pack.get? column.branchKey = some (.obj nested)) :
    (branch column placed inner rest).rowsBelow path pack =
      inner.rowsBelow (path ++ [column.branchKey]) nested ++
        [⟨path ++ [column.branchKey], placed, inner, nested⟩] ++ rest.rowsBelow path pack := by
  rw [rowsBelow, h]

theorem rowsBelow_of_no_row (h : ∀ nested, pack.get? column.branchKey ≠ some (.obj nested)) :
    (branch column placed inner rest).rowsBelow path pack = rest.rowsBelow path pack := by
  rw [rowsBelow]
  split
  · next nested hnested => exact absurd hnested (h nested)
  · rfl

theorem rowsBelow_link (h : pack.get? column.branchKey = none) :
    (branch column placed inner rest).rowsBelow path pack = rest.rowsBelow path pack :=
  rowsBelow_of_no_row fun nested hnested => by rw [h] at hnested; cases hnested

/-! ## One statement for each row -/

/-- There are as many statements for the rows below as there are rows. -/
theorem length_rowsBelow {below : List Insertion} {cells : List (String × Json)}
    (h : shape.inserts pack = .ok (below, cells)) :
    (shape.rowsBelow path pack).length = below.length := by
  induction shape generalizing pack path below cells with
  | nil =>
    cases h
    rfl
  | leaf column rest ih =>
    obtain ⟨value, others, -, hrest, -⟩ := inserts_leaf h
    exact ih hrest
  | branch column placed inner rest ihInner ihRest =>
    obtain ⟨first, value, behind, others, hfirst, -, hrest, rfl, -⟩ := inserts_branch h
    rcases hfirst with ⟨hnone, rfl⟩ | ⟨nested, inside, own, hsome, hinner, rfl⟩
    · rw [rowsBelow_link hnone]
      exact ihRest hrest
    · rw [rowsBelow_row hsome]
      simp only [List.length_append, List.length_singleton, ihInner hinner, ihRest hrest]

/-- A row below stands at a place below. -/
theorem place_of_rowsBelow {row : PackedRow} (h : row ∈ shape.rowsBelow path pack) :
    (row.placed, row.shape) ∈ shape.places := by
  induction shape generalizing pack path with
  | nil => cases h
  | leaf column rest ih => exact ih h
  | branch column placed inner rest ihInner ihRest =>
    rw [rowsBelow] at h
    rcases List.mem_append.1 h with h | h
    · refine List.mem_append_left _ ?_
      split at h
      · rcases List.mem_append.1 h with h | h
        · exact List.mem_cons_of_mem _ (ihInner h)
        · rw [List.mem_singleton.1 h]
          exact List.mem_cons_self
      · cases h
    · exact List.mem_append_right _ (ihRest h)

/-- Each statement is for the table of its row and fills the columns of the row's shape. So
do the cells for the row at hand. -/
theorem fill_inserts (hcomplete : shape.Complete pack) {below : List Insertion}
    {cells : List (String × Json)} (h : shape.inserts pack = .ok (below, cells))
    (stored : List (PackedRow × Insertion))
    (hstored : (shape.rowsBelow path pack).zip below ⊆ stored) :
    List.Forall₂ (fun row insertion => insertion.table = row.placed.table ∧
        PackedRow.Fill stored row.path row.object row.shape.columns insertion.cells)
      (shape.rowsBelow path pack) below ∧
    PackedRow.Fill stored path pack shape.columns cells := by
  induction shape generalizing pack path below cells with
  | nil =>
    cases h
    exact ⟨.nil, .nil⟩
  | leaf column rest ih =>
    obtain ⟨value, others, hvalue, hrest, rfl⟩ := inserts_leaf h
    obtain ⟨hrows, hothers⟩ := ih hcomplete.2 hrest hstored
    exact ⟨hrows, .cons ⟨rfl, .own hvalue⟩ hothers⟩
  | branch column placed inner rest ihInner ihRest =>
    rcases hcomplete.1 with ⟨⟨value, hvalue⟩, hbranch⟩ | ⟨hnone, nested, hbranch, hinner⟩
    · obtain ⟨others, hrest, rfl⟩ := inserts_link hvalue hbranch h
      rw [rowsBelow_link hbranch] at hstored ⊢
      obtain ⟨hrows, hothers⟩ := ihRest hcomplete.2 hrest hstored
      exact ⟨hrows, .cons ⟨rfl, .own hvalue⟩ hothers⟩
    · obtain ⟨inside, own, value, behind, others, hinside, hrest, rfl, rfl, target, htarget,
        hvalue⟩ := inserts_row hnone hbranch h
      rw [rowsBelow_row hbranch] at hstored ⊢
      -- The record is in three parts, since each part has as many rows as statements.
      rw [List.zip_append (by simp [length_rowsBelow hinside]),
        List.zip_append (length_rowsBelow hinside)] at hstored
      obtain ⟨hfirst, hbehind⟩ := List.append_subset.1 hstored
      obtain ⟨hbelow, hrow⟩ := List.append_subset.1 hfirst
      obtain ⟨hrowsInner, hown⟩ := ihInner hinner hinside hbelow
      obtain ⟨hrowsRest, hothers⟩ := ihRest hcomplete.2 hrest hbehind
      refine ⟨List.rel_append (List.rel_append hrowsInner (.cons ⟨rfl, hown⟩ .nil)) hrowsRest,
        .cons ⟨rfl, ?_⟩ hothers⟩
      exact .referenced hnone hbranch rfl (hrow List.mem_cons_self) htarget hvalue

/-! ## Paths tell rows apart -/

/-- The path of a row below goes on with a key of the shape. -/
theorem path_of_rowsBelow {row : PackedRow} (h : row ∈ shape.rowsBelow path pack) :
    ∃ key ∈ shape.keys, path ++ [key] <+: row.path := by
  induction shape generalizing pack path with
  | nil => cases h
  | leaf column rest ih =>
    obtain ⟨key, hkey, hprefix⟩ := ih h
    exact ⟨key, List.mem_cons_of_mem _ hkey, hprefix⟩
  | branch column placed inner rest ihInner ihRest =>
    have hown : column.branchKey ∈ (branch column placed inner rest).keys :=
      List.mem_cons_of_mem _ List.mem_cons_self
    rw [rowsBelow] at h
    rcases List.mem_append.1 h with h | h
    · split at h
      · rcases List.mem_append.1 h with h | h
        · obtain ⟨key, -, hprefix⟩ := ihInner h
          exact ⟨_, hown, (List.prefix_append _ _).trans hprefix⟩
        · rw [List.mem_singleton.1 h]
          exact ⟨_, hown, List.prefix_rfl⟩
      · cases h
    · obtain ⟨key, hkey, hprefix⟩ := ihRest h
      exact ⟨key, List.mem_cons_of_mem _ (List.mem_cons_of_mem _ hkey), hprefix⟩

/-- A path goes on in one way only. -/
theorem key_of_prefixes {key other : String} {whole : List String}
    (h : path ++ [key] <+: whole) (hother : path ++ [other] <+: whole) : key = other := by
  have hprefix := List.prefix_of_prefix_length_le h hother (by simp)
  simpa using hprefix.eq_of_length (by simp)

/-- No two rows of a pack have the same path. -/
theorem nodup_paths (hkeyed : shape.Keyed) :
    ((shape.rowsBelow path pack).map PackedRow.path).Nodup := by
  induction shape generalizing pack path with
  | nil => exact List.nodup_nil
  | leaf column rest ih => exact ih hkeyed.2
  | branch column placed inner rest ihInner ihRest =>
    obtain ⟨-, hbranch, hinner, hrest⟩ := hkeyed
    by_cases hrow : ∃ nested, pack.get? column.branchKey = some (.obj nested)
    · obtain ⟨nested, hsub⟩ := hrow
      rw [rowsBelow_row hsub, List.map_append, List.map_append, List.nodup_append',
        List.nodup_append']
      refine ⟨⟨ihInner hinner, List.nodup_singleton _, ?_⟩, ihRest hrest, ?_⟩
      · -- The row of the branch has a shorter path than those below it.
        intro whole hwhole hown
        obtain ⟨row, hrow, rfl⟩ := List.mem_map.1 hwhole
        obtain ⟨key, -, hprefix⟩ := path_of_rowsBelow hrow
        rw [List.mem_singleton.1 hown] at hprefix
        exact absurd hprefix.length_le (by simp)
      · intro whole hwhole hother
        obtain ⟨row, hrow, rfl⟩ := List.mem_map.1 hother
        obtain ⟨key, hkey, hprefix⟩ := path_of_rowsBelow hrow
        have hown : path ++ [column.branchKey] <+: row.path := by
          rcases List.mem_append.1 hwhole with hwhole | hwhole
          · obtain ⟨below, hbelow, heq⟩ := List.mem_map.1 hwhole
            obtain ⟨_, -, hlonger⟩ := path_of_rowsBelow hbelow
            exact heq ▸ (List.prefix_append _ _).trans hlonger
          · exact List.mem_singleton.1 hwhole ▸ List.prefix_rfl
        exact hbranch (key_of_prefixes hown hprefix ▸ hkey)
    · rw [rowsBelow_of_no_row fun nested hsub => hrow ⟨nested, hsub⟩]
      exact ihRest hrest

end Shape

/-! ## Statements and tables -/

/-- Phrases that are joined spell their texts with the words between them. -/
theorem Sql.Phrase.sql_statement_joined (between : String) (phrases : List Phrase) :
    (statement (joined between phrases)).sql =
      between.intercalate (phrases.map fun phrase => (statement phrase).sql) := by
  induction phrases with
  | nil => rfl
  | cons phrase rest ih =>
    cases rest with
    | nil => simp [joined]
    | cons next others =>
      show (statement (phrase ++ .text between :: joined between (next :: others))).sql = _
      rw [sql_statement_append, sql_statement_cons, ih, List.map_cons (l := next :: others),
        String.intercalate_cons_of_ne_nil (by simp)]
      simp only [Piece.sql, String.append_assoc]

/-- The statement of a row to be inserted, as text: the names of the columns, and a
placeholder for each. Its parameters are the values, in the same order. -/
theorem Insertion.statement_eq (insertion : Insertion) :
    insertion.statement =
      ⟨"INSERT INTO " ++ Sql.quoted insertion.table.database ++ "." ++
          Sql.quoted insertion.table.name ++ " (" ++
          ", ".intercalate (insertion.cells.map fun cell => Sql.quoted cell.1) ++ ") VALUES (" ++
          ", ".intercalate (insertion.cells.map fun _ => "?") ++ ")",
        insertion.cells.map Prod.snd⟩ := by
  have hname : ∀ name, (Sql.Phrase.statement [.name name]).sql = Sql.quoted name := fun name => by
    simp [Sql.Piece.sql]
  have hvalue : ∀ value, (Sql.Phrase.statement [.value value]).sql = "?" := fun value => by
    simp [Sql.Piece.sql]
  have hsql : insertion.statement.sql = "INSERT INTO " ++ Sql.quoted insertion.table.database ++
      "." ++ Sql.quoted insertion.table.name ++ " (" ++
      ", ".intercalate (insertion.cells.map fun cell => Sql.quoted cell.1) ++ ") VALUES (" ++
      ", ".intercalate (insertion.cells.map fun _ => "?") ++ ")" := by
    simp [Insertion.statement, Insertion.phrase, Sql.Phrase.tableName, Sql.Piece.sql,
      Sql.Phrase.sql_statement_joined, Function.comp_def, hname, hvalue, String.append_assoc]
  have hparams : insertion.statement.params = insertion.cells.map Prod.snd := by
    simp [Insertion.statement, Insertion.phrase, Sql.Phrase.tableName, Sql.Piece.params,
      Sql.Phrase.params_statement_joined, List.flatMap_map, ← List.map_eq_flatMap]
  rw [← hsql, ← hparams]

namespace Resource

variable {schema : Schema} {root : Table} {resource : Resource}

/-- Each part of a faithful shape is of the table of its number. -/
theorem Faithful.getElem?_tables (h : resource.Faithful schema) {part : Placed × Shape}
    (hpart : part ∈ resource.submodels) : resource.tables[part.1.index]? = some part.1.table := by
  obtain ⟨i, hi⟩ := List.mem_iff_getElem?.1 hpart
  have hindex := congrArg (·[i]?) h.indices
  have htable := congrArg (·[i]?) h.tables
  simp only [List.getElem?_map, hi, Option.map_some] at hindex htable
  have hlength : i < resource.tables.length := (List.getElem?_eq_some_iff.1 htable.symm).1
  rw [List.getElem?_range hlength] at hindex
  rw [Option.some.inj hindex, ← htable]

/-- The columns of each part of a faithful shape are those of its table, as mounted. -/
theorem Faithful.columns_eq (h : resource.Faithful schema) {part : Placed × Shape}
    (hpart : part ∈ resource.submodels) :
    ∃ lead, part.2.columns =
      part.1.table.visibleColumns.map fun column =>
        column.mounted (tableAlias part.1.index) lead := by
  obtain ⟨lead, hnodes⟩ := h.nodes part hpart
  exact ⟨lead, Shape.columns_of_presents hnodes⟩

/-- **Inserting a pack stores the pack.** The pack of a new row is inserted by one statement
for each of its rows, in order, and no two rows have the same path. Each statement is an
INSERT into the table of the row's number that names every visible column of the table, in
order, with a placeholder for each; bound to it is the entry of the row's object or, where
this has an object for the column's branch, what the statement of that object's row binds
to the referenced column. -/
theorem inserts_store_pack {σ : Type} {draw : IdGenerator → StateM σ Json}
    (hcompile : compile schema root = .ok resource)
    (hapart : ∀ table ∈ resource.tables, schema.KeysApart table) {body pack : Entries Json}
    {before after : σ} (hpack : outcome (resource.newPack draw body) before = (.ok pack, after)) :
    ∃ batch, resource.inserts pack = .ok batch ∧
      ((resource.packedRows pack).map PackedRow.path).Nodup ∧
      List.Forall₂ (PackedRow.StoredBy resource.tables ((resource.packedRows pack).zip batch))
        (resource.packedRows pack) batch ∧
      ∀ insertion ∈ batch, insertion.statement =
        ⟨"INSERT INTO " ++ Sql.quoted insertion.table.database ++ "." ++
            Sql.quoted insertion.table.name ++ " (" ++
            ", ".intercalate (insertion.cells.map fun cell => Sql.quoted cell.1) ++ ") VALUES (" ++
            ", ".intercalate (insertion.cells.map fun _ => "?") ++ ")",
          insertion.cells.map Prod.snd⟩ := by
  have hkeyed := keyed hcompile
  have hfaithful := faithful_of_apart hcompile hapart
  obtain ⟨reply, hrenames⟩ := renames_newPack hpack
  have hcomplete := hrenames.complete hkeyed fun _ _ => rfl
  obtain ⟨⟨below, cells⟩, hinserts⟩ := hcomplete.inserts (bound hcompile hapart)
  have hbatch : resource.inserts pack = .ok (below ++ [⟨resource.root.table, cells⟩]) := by
    rw [inserts, hinserts]
    rfl
  have hlength : (resource.shape.rowsBelow [] pack).length = below.length :=
    Shape.length_rowsBelow hinserts
  have hzip : (resource.packedRows pack).zip (below ++ [⟨resource.root.table, cells⟩]) =
      (resource.shape.rowsBelow [] pack).zip below ++
        [(⟨[], resource.root, resource.shape, pack⟩, ⟨resource.root.table, cells⟩)] := by
    rw [packedRows, List.zip_append hlength]
    rfl
  have hstored : ∀ row : PackedRow, (row.placed, row.shape) ∈ resource.submodels →
      ∀ stored insertion, insertion.table = row.placed.table →
        PackedRow.Fill stored row.path row.object row.shape.columns insertion.cells →
        row.StoredBy resource.tables stored insertion := by
    intro row hpart stored insertion htable hfill
    obtain ⟨lead, hcolumns⟩ := hfaithful.columns_eq hpart
    refine ⟨htable ▸ hfaithful.getElem?_tables hpart, ?_⟩
    rw [hcolumns] at hfill
    exact htable ▸ PackedRow.fill_mounted hfill
  obtain ⟨hrows, hroot⟩ := Shape.fill_inserts hcomplete hinserts
    ((resource.packedRows pack).zip (below ++ [⟨resource.root.table, cells⟩]))
    (hzip ▸ List.subset_append_left _ _)
  refine ⟨_, hbatch, ?_, ?_, fun insertion _ => insertion.statement_eq⟩
  · rw [packedRows, List.map_append, List.nodup_append']
    refine ⟨Shape.nodup_paths hkeyed, List.nodup_singleton _, ?_⟩
    intro path hpath hown
    obtain ⟨row, hrow, rfl⟩ := List.mem_map.1 hpath
    obtain ⟨key, -, hprefix⟩ := Shape.path_of_rowsBelow hrow
    rw [List.mem_singleton.1 hown] at hprefix
    exact absurd hprefix.length_le (by simp)
  · refine List.rel_append ?_ (.cons (hstored _ List.mem_cons_self _ _ rfl hroot) .nil)
    refine List.forall₂_iff_zip.2 ⟨hlength, fun {row insertion} hmem => ?_⟩
    have hrow := (List.forall₂_iff_zip.1 hrows).2 hmem
    have hplace := Shape.place_of_rowsBelow (List.of_mem_zip hmem).1
    exact hstored row (List.mem_cons_of_mem _ hplace) _ insertion hrow.1 hrow.2

end Resource

/-! ## A customer and two addresses -/

/-- An order to an address that is known, of a new customer who lives at a new one. -/
def orderFromOslo : Entries Json :=
  [("customer_id", .obj [("customer_id_address_id",
    .obj [("customer_id_address_id_city", .str "Oslo")])]), ("shipping_id", .int 4)]

/-- The address goes first, then the customer, then the order, each with the identifier of the
one before. -/
theorem order_from_oslo_stored :
    ∃ pack batch, Resource.compile (addressedShop.toSchema [] []) addressedTable =
        .ok addressedOrder ∧
      (∀ table ∈ addressedOrder.tables, (addressedShop.toSchema [] []).KeysApart table) ∧
      outcome (addressedOrder.newPack counting orderFromOslo) 1 = (.ok pack, 4) ∧
      addressedOrder.inserts pack = .ok batch ∧
      List.Forall₂ (PackedRow.StoredBy addressedOrder.tables
          ((addressedOrder.packedRows pack).zip batch)) (addressedOrder.packedRows pack) batch ∧
      batch.map (fun insertion => insertion.statement.params) =
        [[.int 3, .str "Oslo"], [.int 2, .int 3], [.int 1, .int 2, .int 4]] := by
  let pack : Entries Json := [("shop.orders.id", .int 1), ("shop.orders.customer_id_branch",
    .obj [("shop.customers.id", .int 2), ("shop.customers.address_id_branch",
      .obj [("shop.addresses.id", .int 3), ("shop.addresses.city", .str "Oslo")])]),
    ("shop.orders.shipping_id", .int 4)]
  have hcompile : Resource.compile (addressedShop.toSchema [] []) addressedTable =
      .ok addressedOrder := eq_ok_get _
  have hapart : ∀ table ∈ addressedOrder.tables,
      (addressedShop.toSchema [] []).KeysApart table := by decide +kernel
  have hpack : outcome (addressedOrder.newPack counting orderFromOslo) 1 = (.ok pack, 4) := by
    decide +kernel
  have hparams : (addressedOrder.inserts pack).toOption.map (List.map fun insertion =>
      insertion.statement.params) =
        some [[.int 3, .str "Oslo"], [.int 2, .int 3], [.int 1, .int 2, .int 4]] := by
    decide +kernel
  obtain ⟨batch, hbatch, -, hstored, -⟩ := Resource.inserts_store_pack hcompile hapart hpack
  refine ⟨pack, batch, hcompile, hapart, hpack, hbatch, hstored, ?_⟩
  rw [hbatch] at hparams
  exact Option.some.inj hparams

/-- A column of another table is addressed just as the identifier of a customer, and takes its
place in the pack of an order. No table has two columns of one name, or one named as a branch,
and yet the pack cannot be inserted. -/
theorem identifier_replaced_in_pack :
    (∀ table ∈ euShop.tables, (table.columns.map Column.name).Nodup ∧
      ∀ column ∈ table.columns, branchKey column.name ∉ table.columns.map Column.name) ∧
    Resource.compile euShop euTable = .ok euOrder ∧
    ∃ pack, outcome (euOrder.newPack counting [("id", .int 1), ("customer_id",
        .obj [("customer_id_customers.id", .int 5)])]) 0 = (.ok pack, 0) ∧
      ∀ batch, euOrder.inserts pack ≠ .ok batch := by
  let pack : Entries Json := [("shop.orders.id", .int 1),
    ("shop.orders.customer_id_branch", .obj [("shop.eu.customers.id", .int 5)])]
  have hfails : (euOrder.inserts pack).isOk = false := by decide +kernel
  refine ⟨by decide +kernel, eq_ok_get _, pack, by decide +kernel, fun batch hbatch => ?_⟩
  rw [hbatch] at hfails
  cases hfails

end TableApi
