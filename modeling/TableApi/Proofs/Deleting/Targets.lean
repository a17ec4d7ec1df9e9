import TableApi.Proofs.Expansion.Addresses
import TableApi.Proofs.Inserting.Stored

/-!
# The rows that a deletion targets

A row is read as one list of cells. Deleting what was read unpacks the cells, renames them
to a pack, and takes from the pack the primary key of each row that it holds. A key may be
a foreign key, and is then looked for in the branch that it opens, and from there on along
foreign keys to a cell.

`Resource.Holds` says which cell that is, by the numbers of the tables, the joins between
them and the aliases of the cells, and without a look at any pack.
`Resource.deletes_target_row` says that a statement deletes each row by the cells that were
read of it.
-/

namespace TableApi

/-- The value that a row has for a column of a table: its cell or, if a join leads from the
column, the value for the column that the join leads to. -/
inductive Resource.Holds (resource : Resource) (row : Row) : Nat → String → Json → Prop
  | cell {number name value} (hplain : resource.joinFrom? number name = none)
      (hcell : resource.cell? row number name = some value) :
      Holds resource row number name value
  | referenced {number name join index value}
      (hjoin : resource.joinFrom? number name = some join)
      (hright : join.rightAlias = tableAlias index)
      (hvalue : Holds resource row index join.rightColumn value) :
      Holds resource row number name value

/-- Joins lead from a column to one value only. -/
theorem Resource.Holds.unique {resource : Resource} {row : Row} {number : Nat} {name : String}
    {value other : Json} (h : resource.Holds row number name value)
    (hother : resource.Holds row number name other) : value = other := by
  induction h with
  | cell hplain hcell =>
    cases hother with
    | cell _ hsame => exact Option.some.inj (hcell.symm.trans hsame)
    | referenced hjoin => cases hplain.symm.trans hjoin
  | referenced hjoin hright _ ih =>
    cases hother with
    | cell hplain => cases hplain.symm.trans hjoin
    | referenced hsame hindex hvalue =>
      obtain rfl := Option.some.inj (hjoin.symm.trans hsame)
      obtain rfl := tableAlias_inj.1 (hright.symm.trans hindex)
      exact ih hvalue

namespace Shape

/-- Whatever a pack says of the columns of a table is true of a relation between names and
values. -/
def Traces (found : String → Json → Prop) (pack : Entries Json) : Shape → Prop
  | nil => True
  | leaf column rest =>
    (∀ value, pack.get? column.qualifiedName = some value → found column.name value) ∧
      rest.Traces found pack
  | branch column _ inner rest =>
    (∀ value, (column.heldIn? pack fun name nested => inner.valueOf? name nested) = some value →
      found column.name value) ∧ rest.Traces found pack

namespace Traces

variable {shape : Shape} {found : String → Json → Prop} {pack : Entries Json}

theorem valueOf? (h : shape.Traces found pack) {name : String} {value : Json}
    (hvalue : shape.valueOf? name pack = some value) : found name value := by
  induction shape with
  | nil => cases hvalue
  | leaf column rest ih =>
    rw [Shape.valueOf?] at hvalue
    split at hvalue
    · next heq => exact heq ▸ h.1 value hvalue
    · exact ih h.2 hvalue
  | branch column placed inner rest _ ih =>
    rw [Shape.valueOf?] at hvalue
    split at hvalue
    · next heq => exact heq ▸ h.1 value hvalue
    · exact ih h.2 hvalue

/-- One column more keeps to the relation, wherever its value comes from. -/
theorem keyCell {column : Column} {held : Option Json}
    {others : Except Fault (List (String × Json))} {key : List (String × Json)}
    (hheld : ∀ value, held = some value → found column.name value)
    (hothers : ∀ cells, others = .ok cells → ∀ cell ∈ cells, found cell.1 cell.2)
    (h : (if column.isPrimary then do
        let value ← column.required held
        let cells ← others
        .ok ((column.name, value) :: cells)
      else others) = .ok key) : ∀ cell ∈ key, found cell.1 cell.2 := by
  split at h
  · obtain ⟨value, hvalue, h⟩ := ok_of_bind h
    obtain ⟨cells, hcells, h⟩ := ok_of_bind h
    cases h
    exact List.forall_mem_cons.2 ⟨hheld value (Column.required_ok.1 hvalue), hothers cells hcells⟩
  · exact hothers key h

theorem keyCells (h : shape.Traces found pack) {key : List (String × Json)}
    (hkey : shape.keyCells pack = .ok key) : ∀ cell ∈ key, found cell.1 cell.2 := by
  induction shape generalizing key with
  | nil =>
    cases hkey
    exact fun _ hmem => absurd hmem List.not_mem_nil
  | leaf column rest ih =>
    rw [Shape.keyCells] at hkey
    exact keyCell h.1 (fun _ hcells => ih h.2 hcells) hkey
  | branch column placed inner rest _ ih =>
    rw [Shape.keyCells] at hkey
    exact keyCell h.1 (fun _ hcells => ih h.2 hcells) hkey

end Traces

end Shape

/-- A row that a pack holds is the row of a part of the shape, and whatever the pack says of
it is true of the part's number. -/
structure HeldRow.TracedTo (found : Nat → String → Json → Prop) (row : HeldRow)
    (part : Placed × Shape) : Prop where
  table : row.table = part.1.table
  shape : row.shape = part.2
  traces : row.shape.Traces (found part.1.index) row.pack

/-- Entries in two parts are zipped one part after the other. -/
theorem zip_append_of_le {α β : Type} {first second : List α} {cells : List β}
    (h : first.length ≤ cells.length) :
    (first ++ second).zip cells = first.zip cells ++ second.zip (cells.drop first.length) := by
  induction first generalizing cells with
  | nil => rfl
  | cons entry rest ih =>
    cases cells with
    | nil => cases h
    | cons cell cells => exact congrArg (List.cons _) (ih (Nat.le_of_succ_le_succ h))

/-- What the pack of a row says is true of any relation that holds of the cells and that the
foreign keys preserve. -/
theorem Schema.Expands.traced {schema : Schema} {columns : List Column} {expansion : Expansion}
    (h : schema.Expands columns expansion) {owner next : Nat} {path : List Column}
    {found : Nat → String → Json → Prop}
    (hhops : ∀ hop ∈ expansion.hops owner next, ∀ value,
      found hop.index hop.referenced value → found hop.owner hop.source.name value)
    (hkeyed : (expansion.shape owner next path).Keyed)
    (hbelow : ∀ place ∈ (expansion.shape owner next path).places, place.2.names.Nodup)
    {cells : Row} (hwide : (expansion.plainSites owner next path).length ≤ cells.length)
    (hcells : ∀ entry ∈ (expansion.plainSites owner next path).zip cells,
      found entry.1.number entry.1.source.name entry.2)
    {whole : Entries Json} (hwhole : ∀ key ∈ (expansion.shape owner next path).keys,
      whole.get? key = ((expansion.shape owner next path).rowPack cells).1.get? key) :
    (expansion.shape owner next path).Traces (found owner) whole ∧
      List.Forall₂ (HeldRow.TracedTo found) ((expansion.shape owner next path).heldBelow whole)
        (expansion.shape owner next path).places := by
  induction h generalizing owner next path cells whole with
  | nil => exact ⟨trivial, .nil⟩
  | @plain source rest others hlive hrest ih =>
    cases cells with
    | nil => cases hwide
    | cons cell cells =>
      rw [Expansion.plainSites, List.zip_cons_cons, List.forall_mem_cons] at hcells
      obtain ⟨hvalue, htail⟩ := Shape.Relabels.find_leaf hkeyed hwhole
      obtain ⟨htraces, hheld⟩ :=
        ih hhops hkeyed.2 hbelow (Nat.le_of_succ_le_succ hwide) hcells.2 htail
      refine ⟨⟨fun value hfound => ?_, htraces⟩, hheld⟩
      obtain rfl := Option.some.inj (hvalue.symm.trans hfound)
      exact hcells.1
  | @follow source rest table referenced inner others hlive hinner hrest ihInner ihRest =>
    simp only [Expansion.shape, Shape.places, List.cons_append, List.forall_mem_cons,
      List.forall_mem_append] at hbelow
    obtain ⟨-, hbelowInner, hbelowRest⟩ := hbelow
    simp only [Expansion.hops, List.cons_append, List.forall_mem_cons, List.forall_mem_append]
      at hhops
    obtain ⟨hhop, hhopsInner, hhopsRest⟩ := hhops
    -- The cells of the branch come first, and the pack of the branch is made of them alone.
    rw [Expansion.plainSites, List.length_append] at hwide
    rw [Expansion.plainSites, zip_append_of_le (by omega), List.forall_mem_append] at hcells
    have hleft := Shape.rowPack_left (inner.shape next (next + 1) (path ++ [source])) cells
    rw [Expansion.leaves_shape, List.length_map] at hleft
    obtain ⟨hnone, hobject, htail⟩ := Shape.Relabels.find_row hkeyed
      (Shape.renames_rowPack hbelowRest _).relabels hwhole
    rw [hleft] at htail
    obtain ⟨htracesInner, hheldInner⟩ :=
      ihInner hhopsInner hkeyed.2.2.1 hbelowInner (by omega) hcells.1 fun _ _ => rfl
    obtain ⟨htraces, hheld⟩ := ihRest hhopsRest hkeyed.2.2.2 hbelowRest
      (by rw [List.length_drop]; omega) hcells.2 htail
    refine ⟨⟨fun value hvalue => ?_, htraces⟩, ?_⟩
    · obtain ⟨target, hleads, rfl⟩ := liveTarget?_eq_some_iff.1 hlive
      have hrelation : (source.mounted (tableAlias owner) (leadOf path)).relation = some target :=
        hleads.relation
      simp only [Column.heldIn?, hnone, hrelation, hobject] at hvalue
      exact hhop value (htracesInner.valueOf? hvalue)
    · rw [Expansion.shape, Shape.heldBelow_row hobject, Shape.places]
      exact List.rel_append (.cons ⟨rfl, rfl, htracesInner⟩ hheldInner) hheld

/-! ## Statements -/

/-- The statement of a row to be deleted, as text: an equation for each column of the key,
with a placeholder. Its parameters are the values, in the same order. -/
theorem Deletion.statement_eq (deletion : Deletion) :
    deletion.statement =
      ⟨"DELETE FROM " ++ Sql.quoted deletion.table.database ++ "." ++
          Sql.quoted deletion.table.name ++ " WHERE " ++
          " AND ".intercalate (deletion.key.map fun cell => Sql.quoted cell.1 ++ " = ?"),
        deletion.key.map Prod.snd⟩ := by
  have hequation : ∀ name value,
      (Sql.Phrase.statement [.name name, .text " = ", .value value]).sql =
        Sql.quoted name ++ " = ?" := by
    intro name value
    simp [Sql.Piece.sql]
  have hsql : deletion.statement.sql = "DELETE FROM " ++ Sql.quoted deletion.table.database ++
      "." ++ Sql.quoted deletion.table.name ++ " WHERE " ++
      " AND ".intercalate (deletion.key.map fun cell => Sql.quoted cell.1 ++ " = ?") := by
    simp [Deletion.statement, Deletion.phrase, Sql.Phrase.tableName, Sql.Piece.sql,
      Sql.Phrase.sql_statement_joined, Function.comp_def, hequation, String.append_assoc]
  have hparams : deletion.statement.params = deletion.key.map Prod.snd := by
    simp [Deletion.statement, Deletion.phrase, Sql.Phrase.tableName, Sql.Piece.params,
      Sql.Phrase.params_statement_joined, List.flatMap_map, ← List.map_eq_flatMap]
  rw [← hsql, ← hparams]

/-- A statement targets the row that was read of a table: it equates each visible column of
the table's primary key, in order, with the one value that the row holds for it. -/
structure Deletion.Targets (resource : Resource) (row : Row) (number : Nat) (table : Table)
    (deletion : Deletion) : Prop where
  ofTable : deletion.table = table
  names : deletion.key.map Prod.fst =
    (table.visibleColumns.filter Column.isPrimary).map Column.name
  values : ∀ cell ∈ deletion.key, ∀ value,
    resource.Holds row number cell.1 value ↔ value = cell.2

namespace Resource

variable {schema : Schema} {root : Table} {resource : Resource} {row : Row}

/-- The pack of a row has a row for each table, and says of it what the row says. -/
theorem traced_held (hcompile : compile schema root = .ok resource)
    (hapart : ∀ table ∈ resource.tables, schema.KeysApart table) (hnames : resource.ColumnsApart)
    (hprimaries : ∀ table ∈ resource.tables, table.PrimariesApart)
    (hwidth : row.length = resource.columns.length) :
    List.Forall₂ (HeldRow.TracedTo (resource.Holds row))
      (resource.held (resource.shape.rowPack row).1) resource.submodels := by
  obtain ⟨expansion, hexpands, hmounted, -⟩ := mounted_of_compile hcompile
  have hshape := shape_eq hmounted hexpands hapart
  have hkeyed := keyed hcompile
  have hbelow := ((faithful_of_apart hcompile hapart).namesApart hprimaries).below
  have hplain : (expansion.plainSites 0 1 []).length = row.length := by
    rw [hwidth, columns, hshape, Expansion.leaves_shape, List.length_map]
  have hroot : resource.root = root.placedAt 0 := congrArg Mounted.root hmounted
  have hhops : ∀ hop ∈ expansion.hops 0 1, ∀ value,
      resource.Holds row hop.index hop.referenced value →
        resource.Holds row hop.owner hop.source.name value := fun hop hhop value hvalue =>
    .referenced (hnames.joinFrom?_hop hmounted hexpands hhop) rfl hvalue
  have hcells : ∀ entry ∈ (expansion.plainSites 0 1 []).zip row,
      resource.Holds row entry.1.number entry.1.source.name entry.2 := fun entry hentry =>
    .cell (hnames.joinFrom?_plain hmounted hexpands (List.of_mem_zip hentry).1)
      (hnames.cell?_plain hmounted hexpands hshape hwidth hentry)
  rw [held, submodels, heldRoot, hroot]
  rw [hshape] at hkeyed hbelow ⊢
  obtain ⟨htraces, hheld⟩ :=
    hexpands.traced hhops hkeyed hbelow (Nat.le_of_eq hplain) hcells fun _ _ => rfl
  exact .cons ⟨rfl, rfl, htraces⟩ hheld

/-- The key columns of each part of a faithful shape are those of its table. -/
theorem Faithful.names_keyColumns (h : resource.Faithful schema) {part : Placed × Shape}
    (hpart : part ∈ resource.submodels) :
    part.2.keyColumns.map Column.name =
      (part.1.table.visibleColumns.filter Column.isPrimary).map Column.name := by
  obtain ⟨lead, hcolumns⟩ := h.columns_eq hpart
  rw [Shape.keyColumns, hcolumns, List.filter_map, List.map_map]
  rfl

/-- Each table of the resource has a part of a faithful shape, in the place of its number. -/
theorem Faithful.exists_part (h : resource.Faithful schema) {number : Nat} {table : Table}
    (htable : resource.tables[number]? = some table) :
    ∃ part, resource.submodels[number]? = some part ∧ part.1.table = table ∧
      part.1.index = number := by
  have hnumber := (List.getElem?_eq_some_iff.1 htable).1
  have hindices := congrArg (·[number]?) h.indices
  rw [← h.tables, List.getElem?_map] at htable
  obtain ⟨part, hpart, hmounted⟩ := Option.map_eq_some_iff.1 htable
  simp only [List.getElem?_map, hpart, List.getElem?_range hnumber] at hindices
  exact ⟨part, hpart, hmounted, Option.some.inj hindices⟩

/-- A statement that deletes a row of which the pack says what the row of cells says targets
that row. -/
theorem Faithful.targets (h : resource.Faithful schema) {part : Placed × Shape}
    (hpart : part ∈ resource.submodels) {held : HeldRow} {deletion : Deletion}
    (hread : held.TracedTo (resource.Holds row) part) (hwritten : held.DeletedBy deletion) :
    Deletion.Targets resource row part.1.index part.1.table deletion := by
  obtain ⟨htable, -, hkey⟩ := hwritten
  refine ⟨htable.trans hread.table, ?_, fun cell hcell value => ?_⟩
  · exact (Shape.names_keyCells hkey).trans (hread.shape ▸ h.names_keyColumns hpart)
  · have hholds := hread.traces.keyCells hkey cell hcell
    exact ⟨fun hvalue => hvalue.unique hholds, fun heq => heq ▸ hholds⟩

/-- **A deletion targets the row that was read.** A row of the right width unpacks, and its
payload is renamed to a pack. Deleting the pack fails for want of a key exactly if some table
has no visible primary key. Otherwise there is one statement for each table, in the order of
their numbers, which deletes from it the row with the values that the row holds for the
table's primary key: those of its own cells or, for foreign keys, of the cells that the joins
lead to. -/
theorem deletes_target_row (hcompile : compile schema root = .ok resource)
    (hapart : ∀ table ∈ resource.tables, schema.KeysApart table) (hnames : resource.ColumnsApart)
    (hprimaries : ∀ table ∈ resource.tables, table.PrimariesApart)
    (hwidth : row.length = resource.columns.length) :
    ∃ payload pack, resource.unpack row = .ok payload ∧ resource.packOf payload = .ok pack ∧
      ((∃ reason, resource.deletes pack = .error (.integrity reason)) ↔
        ∃ table ∈ resource.tables, table.Keyless) ∧
      ((∀ table ∈ resource.tables, ¬ table.Keyless) →
        ∃ batch, resource.deletes pack = .ok batch ∧ batch.length = resource.tables.length ∧
          (∀ number table, resource.tables[number]? = some table →
            ∃ deletion, batch[number]? = some deletion ∧
              Deletion.Targets resource row number table deletion) ∧
          ∀ deletion ∈ batch, deletion.statement =
            ⟨"DELETE FROM " ++ Sql.quoted deletion.table.database ++ "." ++
                Sql.quoted deletion.table.name ++ " WHERE " ++
                " AND ".intercalate (deletion.key.map fun cell => Sql.quoted cell.1 ++ " = ?"),
              deletion.key.map Prod.snd⟩) := by
  have hfaithful := faithful_of_apart hcompile hapart
  have hapartNames := hfaithful.namesApart hprimaries
  have hunpack : resource.unpack row = .ok (resource.shape.unpack row).1 := by
    rw [unpack, if_pos hwidth, Shape.ofList_unpack hapartNames.own]
  obtain ⟨pack, hpack, hdeletes⟩ := deletes_of_unpack hcompile hapart hprimaries hunpack
  have hrow : pack = (resource.shape.rowPack row).1 := by
    have hrenames := Shape.renames_rowPack hapartNames.below row
    exact Except.ok.inj (hpack.symm.trans (packOf_of_renames hapartNames hrenames))
  refine ⟨_, pack, hunpack, hpack, ⟨?_, ?_⟩, fun hkeys => ?_⟩
  · rintro ⟨reason, hfault⟩
    rcases hdeletes with ⟨-, batch, hbatch⟩ | ⟨table, htable, hkeyless, -⟩
    · cases hfault.symm.trans hbatch
    · exact ⟨table, htable, hkeyless⟩
  · rintro ⟨table, htable, hkeyless⟩
    rcases hdeletes with ⟨hkeys, -⟩ | ⟨other, -, -, hfault⟩
    · exact absurd hkeyless (hkeys table htable)
    · exact ⟨_, hfault⟩
  · rcases hdeletes with ⟨-, batch, hbatch⟩ | ⟨table, htable, hkeyless, -⟩
    · have htraced := traced_held hcompile hapart hnames hprimaries hwidth
      have hdeleted := deletedBy_deletes hbatch
      rw [← hrow] at htraced
      have hlength : batch.length = resource.tables.length := by
        rw [← hfaithful.tables, List.length_map, ← htraced.length_eq, hdeleted.length_eq]
      refine ⟨batch, hbatch, hlength, fun number table htable => ?_,
        fun deletion _ => deletion.statement_eq⟩
      obtain ⟨part, hpart, rfl, rfl⟩ := hfaithful.exists_part htable
      obtain ⟨hnumber, hget⟩ := List.getElem?_eq_some_iff.1 hpart
      have hheld : part.1.index < (resource.held pack).length := htraced.length_eq ▸ hnumber
      have hsent : part.1.index < batch.length := hdeleted.length_eq ▸ hheld
      have hread := (List.forall₂_iff_get.1 htraced).2 part.1.index hheld hnumber
      have hwritten := (List.forall₂_iff_get.1 hdeleted).2 part.1.index hheld hsent
      rw [List.get_eq_getElem, List.get_eq_getElem, hget] at hread
      exact ⟨_, List.getElem?_eq_getElem hsent,
        hfaithful.targets (List.mem_of_getElem? hpart) hread hwritten⟩
    · exact absurd hkeyless (hkeys table htable)

end Resource

/-! ## A customer who is a person -/

/-- An order of Ann's, who is person 7 and customer 7. -/
def annsRow : Row :=
  [.int 1, .int 7, .str "Ann"]

def annsPack : Entries Json :=
  [("shop.orders.id", .int 1), ("shop.orders.customer_id_branch",
    .obj [("shop.customers.id_branch", .obj [("shop.persons.id", .int 7)]),
      ("shop.customers.name", .str "Ann")])]

/-- The identifier of the customer is that of the person, and is found in the person's cell. -/
theorem ann_deleted :
    Resource.compile (customersArePersons.toSchema [] []) orderTable = .ok orderResource ∧
      (∀ table ∈ orderResource.tables, (customersArePersons.toSchema [] []).KeysApart table) ∧
      orderResource.ColumnsApart ∧
      (∀ table ∈ orderResource.tables, table.PrimariesApart) ∧
      annsRow.length = orderResource.columns.length ∧
      ∃ payload batch, orderResource.unpack annsRow = .ok payload ∧
        orderResource.packOf payload = .ok annsPack ∧
        orderResource.deletes annsPack = .ok batch ∧
        batch.map (fun deletion => (deletion.table.name, deletion.key)) =
          [("orders", [("id", .int 1)]), ("customers", [("id", .int 7)]),
            ("persons", [("id", .int 7)])] ∧
        ∀ number table, orderResource.tables[number]? = some table →
          ∃ deletion, batch[number]? = some deletion ∧
            Deletion.Targets orderResource annsRow number table deletion := by
  have hapart : ∀ table ∈ orderResource.tables,
      (customersArePersons.toSchema [] []).KeysApart table := by decide +kernel
  have hnames : orderResource.ColumnsApart := by decide +kernel
  have hprimaries : ∀ table ∈ orderResource.tables, table.PrimariesApart := by decide +kernel
  have hwidth : annsRow.length = orderResource.columns.length := by decide +kernel
  have hkeys : ∀ table ∈ orderResource.tables, ¬ table.Keyless := by
    unfold Table.Keyless
    decide +kernel
  have hpack : (orderResource.unpack annsRow).bind orderResource.packOf = .ok annsPack := by
    decide +kernel
  have hkey : (orderResource.deletes annsPack).toOption.map
      (List.map fun deletion : Deletion => (deletion.table.name, deletion.key)) =
        some [("orders", [("id", .int 1)]), ("customers", [("id", .int 7)]),
          ("persons", [("id", .int 7)])] := by decide +kernel
  obtain ⟨payload, pack, hunpack, hrenamed, -, hdeletes⟩ :=
    Resource.deletes_target_row compile_orderTable hapart hnames hprimaries hwidth
  rw [hunpack, Except.bind, hrenamed] at hpack
  obtain rfl := Except.ok.inj hpack
  obtain ⟨batch, hbatch, -, htargets, -⟩ := hdeletes hkeys
  rw [hbatch] at hkey
  exact ⟨compile_orderTable, hapart, hnames, hprimaries, hwidth, payload, batch, hunpack,
    hrenamed, hbatch, Option.some.inj hkey, htargets⟩

/-! ## A key that is gone -/

/-- A column of another table is addressed just as the identifier of a customer, and takes its
place in every row. All columns show under their own names, which differ in each table, none is
named as a branch, and each table has a visible primary key; and yet there is nothing to delete
the customer by. -/
theorem identifier_gone_from_row :
    (∀ table ∈ euShop.tables, (table.columns.map Column.name).Nodup ∧
      ∀ column ∈ table.columns, column.displayName.primary = column.name ∧
        branchKey column.name ∉ table.columns.map Column.name) ∧
    Resource.compile euShop euTable = .ok euOrder ∧
    (∀ table ∈ euOrder.tables, ∃ column ∈ table.visibleColumns, column.isPrimary = true) ∧
    ([.int 1, .int 5] : Row).length = euOrder.columns.length ∧
    ∃ payload pack, euOrder.unpack [.int 1, .int 5] = .ok payload ∧
      euOrder.packOf payload = .ok pack ∧
      euOrder.deletes pack = .error (.integrity (.nothingToDeleteBy "shop.eu.customers")) := by
  let payload : Entries Json := [("id", .int 1), ("customer_id",
    .obj [("customer_id_customers.id", .int 5)])]
  let pack : Entries Json := [("shop.orders.id", .int 1),
    ("shop.orders.customer_id_branch", .obj [("shop.eu.customers.id", .int 5)])]
  exact ⟨by decide +kernel, eq_ok_get _, by decide +kernel, by decide +kernel, payload, pack,
    by decide +kernel, by decide +kernel, eq_error_of_map (by decide +kernel)⟩

end TableApi
