import TableApi.Proofs.Deleting.Held
import TableApi.Proofs.Faithful
import TableApi.Proofs.Packing.Supplied
import TableApi.Proofs.Renaming.Replies
import TableApi.Proofs.Renaming.Rows

/-!
# Complete packs

A pack is complete when it says something for every column: a value for a plain one, and
for one with a branch either a value or a row that is complete in turn. Both ways of making
a pack give complete ones, of a new row and of a row that was read
(`Shape.Renames.complete`).

A complete pack has all that its statements need, as long as every foreign key references a
column of the branch that it opens (`Shape.Bound`). The value of a foreign key may stand at
the end of a chain of foreign keys, each found in the branch of the one before
(`Shape.Complete.valueOf?`). So inserting a complete pack never fails, and deleting it only
for a table without a primary key.
-/

namespace TableApi

/-- Every column with a branch references a column of the table that it opens. -/
def Shape.Bound : Shape → Prop
  | nil => True
  | leaf _ rest => rest.Bound
  | branch column _ inner rest =>
    (∃ target, column.relation = some target ∧ target.column ∈ inner.columns.map Column.name) ∧
      inner.Bound ∧ rest.Bound

/-- A pack has something for every column of a table and of the rows that it holds
below. -/
def Shape.Complete (pack : Entries Json) : Shape → Prop
  | nil => True
  | leaf column rest => (∃ value, pack.get? column.qualifiedName = some value) ∧ rest.Complete pack
  | branch column _ inner rest =>
    (((∃ value, pack.get? column.qualifiedName = some value) ∧ pack.get? column.branchKey = none) ∨
      (pack.get? column.qualifiedName = none ∧
        ∃ below, pack.get? column.branchKey = some (.obj below) ∧ inner.Complete below)) ∧
    rest.Complete pack

/-! ## Where foreign keys lead -/

/-- A shape that presents columns has them as they are mounted. -/
theorem Shape.columns_of_presents {schema : Schema} {index : Nat} {lead : String} {shape : Shape}
    {columns : List Column} (h : List.Forall₂ (schema.Presents index lead) columns shape.nodes) :
    shape.columns = columns.map fun column => column.mounted (tableAlias index) lead := by
  rw [columns_eq_nodes]
  generalize shape.nodes = nodes at h
  induction h with
  | nil => rfl
  | cons hpresents _ ih => rw [List.map_cons, List.map_cons, ih, hpresents.1]

/-- A live relation leads to a visible column, so it is bound. -/
theorem Schema.Expands.bound {schema : Schema} {columns : List Column} {expansion : Expansion}
    (h : schema.Expands columns expansion) (owner next : Nat) (path : List Column) :
    (expansion.shape owner next path).Bound := by
  induction h generalizing owner next path with
  | nil => exact True.intro
  | plain hlive hrest ih => exact ih owner next path
  | @follow source rest table referenced inner others hlive hinner hrest ihInner ihRest =>
    obtain ⟨target, hleads, -⟩ := liveTarget?_eq_some_iff.1 hlive
    obtain ⟨column, hcolumn, hopen⟩ := hleads.columnOpen
    refine ⟨⟨target, hleads.relation, ?_⟩, ihInner next (next + 1) _, ihRest owner _ path⟩
    rw [Shape.columns_of_presents (hinner.nodes_shape next (next + 1) _), List.map_map]
    have hname := List.find?_some hcolumn
    refine List.mem_map.2 ⟨column, List.mem_filter.2 ⟨List.mem_of_find?_eq_some hcolumn, ?_⟩,
      eq_of_beq hname⟩
    rw [hopen]
    rfl

theorem Resource.bound {schema : Schema} {root : Table} {resource : Resource}
    (hcompile : compile schema root = .ok resource)
    (hapart : ∀ table ∈ resource.tables, schema.KeysApart table) : resource.shape.Bound := by
  obtain ⟨expansion, hexpands, hmounted, -⟩ := mounted_of_compile hcompile
  rw [shape_eq hmounted hexpands hapart]
  exact hexpands.bound 0 1 []

/-! ## Packs that are complete -/

/-- A payload that has every column is renamed to a complete pack. -/
theorem Shape.Renames.complete {shape : Shape} {payload pack whole : Entries Json}
    (h : shape.Renames payload pack) (hkeyed : shape.Keyed)
    (hwhole : ∀ key ∈ shape.keys, whole.get? key = pack.get? key) : shape.Complete whole := by
  induction h generalizing whole with
  | nil => exact True.intro
  | leaf value hrest ih =>
    obtain ⟨hvalue, htail⟩ := Relabels.find_leaf hkeyed hwhole
    exact ⟨⟨value, hvalue⟩, ih hkeyed.2 htail⟩
  | link hplain hrest ih =>
    obtain ⟨hvalue, hnone, htail⟩ := Relabels.find_link hkeyed hrest.relabels hwhole
    exact ⟨.inl ⟨⟨_, hvalue⟩, hnone⟩, ih hkeyed.2.2.2 htail⟩
  | row hinner hrest ihInner ihRest =>
    obtain ⟨hnone, hobject, htail⟩ := Relabels.find_row hkeyed hrest.relabels hwhole
    exact ⟨.inr ⟨hnone, _, hobject, ihInner hkeyed.2.2.1 fun _ _ => rfl⟩,
      ihRest hkeyed.2.2.2 htail⟩

namespace Shape.Complete

variable {shape inner rest : Shape} {pack : Entries Json} {column : Column} {placed : Placed}

/-- What a column with a branch holds, if the values of the branch's row are found. -/
theorem heldIn? (h : (Shape.branch column placed inner rest).Complete pack)
    (hbound : (Shape.branch column placed inner rest).Bound)
    (hinner : ∀ below, inner.Complete below → ∀ name ∈ inner.columns.map Column.name,
      ∃ value, inner.valueOf? name below = some value) :
    ∃ value, column.heldIn? pack (fun name nested => inner.valueOf? name nested) = some value := by
  unfold Column.heldIn?
  obtain ⟨target, hrelation, htarget⟩ := hbound.1
  rcases h.1 with ⟨⟨value, hvalue⟩, -⟩ | ⟨hnone, below, hbelow, hcomplete⟩
  · rw [hvalue]
    exact ⟨value, rfl⟩
  · rw [hnone, hrelation, hbelow]
    exact hinner below hcomplete target.column htarget

/-- **A value is found along any chain of foreign keys.** A complete pack has a value for each
column, by its name. -/
theorem valueOf? (h : shape.Complete pack) (hbound : shape.Bound) :
    ∀ name ∈ shape.columns.map Column.name, ∃ value, shape.valueOf? name pack = some value := by
  induction shape generalizing pack with
  | nil => exact fun name hname => absurd hname List.not_mem_nil
  | leaf column rest ih =>
    intro name hname
    rw [Shape.valueOf?]
    split
    · exact h.1
    · next hne =>
      rcases List.mem_cons.1 hname with rfl | hname
      · exact absurd rfl hne
      · exact ih h.2 hbound name hname
  | branch column placed inner rest ihInner ihRest =>
    intro name hname
    rw [Shape.valueOf?]
    split
    · exact h.heldIn? hbound fun below hbelow => ihInner hbelow hbound.2.1
    · next hne =>
      rcases List.mem_cons.1 hname with rfl | hname
      · exact absurd rfl hne
      · exact ihRest h.2 hbound.2.2 name hname

theorem held (h : (Shape.branch column placed inner rest).Complete pack)
    (hbound : (Shape.branch column placed inner rest).Bound) :
    ∃ value, column.heldIn? pack (fun name nested => inner.valueOf? name nested) = some value :=
  h.heldIn? hbound fun _ hbelow => hbelow.valueOf? hbound.2.1

/-- A complete pack can be inserted. -/
theorem inserts (h : shape.Complete pack) (hbound : shape.Bound) :
    ∃ statements, shape.inserts pack = .ok statements := by
  induction shape generalizing pack with
  | nil => exact ⟨_, rfl⟩
  | leaf column rest ih =>
    obtain ⟨⟨value, hvalue⟩, hrest⟩ := h
    obtain ⟨others, hothers⟩ := ih hrest hbound
    rw [Shape.inserts, hvalue, hothers]
    exact ⟨_, rfl⟩
  | branch column placed inner rest ihInner ihRest =>
    obtain ⟨value, hvalue⟩ := h.held hbound
    obtain ⟨hhere, hrest⟩ := h
    obtain ⟨others, hothers⟩ := ihRest hrest hbound.2.2
    rw [Shape.inserts, hvalue, hothers]
    rcases hhere with ⟨-, hnone⟩ | ⟨-, below, hbelow, hcomplete⟩
    · rw [hnone]
      exact ⟨_, rfl⟩
    · obtain ⟨inside, hinside⟩ := ihInner hcomplete hbound.2.1
      simp only [hbelow, Column.branchObject, hinside, bind, Except.bind]
      exact ⟨_, rfl⟩

/-- A complete pack has the values of the primary key. -/
theorem keyCells (h : shape.Complete pack) (hbound : shape.Bound) :
    ∃ cells, shape.keyCells pack = .ok cells := by
  induction shape generalizing pack with
  | nil => exact ⟨_, rfl⟩
  | leaf column rest ih =>
    obtain ⟨⟨value, hvalue⟩, hrest⟩ := h
    obtain ⟨others, hothers⟩ := ih hrest hbound
    rw [Shape.keyCells, hvalue, hothers]
    split <;> exact ⟨_, rfl⟩
  | branch column placed inner rest _ ih =>
    obtain ⟨value, hvalue⟩ := h.held hbound
    obtain ⟨others, hothers⟩ := ih h.2 hbound.2.2
    rw [Shape.keyCells, hvalue, hothers]
    split <;> exact ⟨_, rfl⟩

/-- The row of a complete pack can be deleted, if its table has a primary key. -/
theorem deletion (h : shape.Complete pack) (hbound : shape.Bound) (table : Table) :
    (∃ first, shape.deletion table pack = .ok first) ∨
      (shape.keyColumns = [] ∧
        shape.deletion table pack =
          .error (.integrity (.nothingToDeleteBy table.qualifiedName))) := by
  unfold Shape.deletion
  split
  · next hempty => exact .inr ⟨List.isEmpty_iff.1 hempty, rfl⟩
  · obtain ⟨cells, hcells⟩ := h.keyCells hbound
    rw [hcells]
    exact .inl ⟨_, rfl⟩

/-- So can the rows below, if their tables do. -/
theorem deletesBelow (h : shape.Complete pack) (hbound : shape.Bound) :
    (∃ batch, shape.deletesBelow pack = .ok batch) ∨
      ∃ part ∈ shape.places, part.2.keyColumns = [] ∧
        shape.deletesBelow pack =
          .error (.integrity (.nothingToDeleteBy part.1.table.qualifiedName)) := by
  induction shape generalizing pack with
  | nil => exact .inl ⟨_, rfl⟩
  | leaf column rest ih => exact ih h.2 hbound
  | branch column placed inner rest ihInner ihRest =>
    rw [Shape.deletesBelow]
    rcases h with ⟨⟨-, hnone⟩ | ⟨-, below, hbelow, hcomplete⟩, hrest⟩
    · rw [hnone]
      rcases ihRest hrest hbound.2.2 with hok | ⟨part, hpart, hkeys, hfault⟩
      · exact .inl hok
      · exact .inr ⟨part, List.mem_cons_of_mem _ (List.mem_append_right _ hpart), hkeys, hfault⟩
    · simp only [hbelow, Column.branchObject, bind, Except.bind]
      rcases hcomplete.deletion hbound.2.1 placed.table with ⟨first, hfirst⟩ | ⟨hkeys, hfault⟩
      · rw [hfirst]
        rcases ihInner hcomplete hbound.2.1 with ⟨inside, hinside⟩ | ⟨part, hpart, hkeys, hfault⟩
        · rw [hinside]
          rcases ihRest hrest hbound.2.2 with ⟨others, hothers⟩ | ⟨part, hpart, hkeys, hfault⟩
          · rw [hothers]
            exact .inl ⟨_, rfl⟩
          · rw [hfault]
            exact .inr ⟨part, List.mem_cons_of_mem _ (List.mem_append_right _ hpart), hkeys, rfl⟩
        · rw [hfault]
          exact .inr ⟨part, List.mem_cons_of_mem _ (List.mem_append_left _ hpart), hkeys, rfl⟩
      · rw [hfault]
        exact .inr ⟨(placed, inner), List.mem_cons_self, hkeys, rfl⟩

end Shape.Complete

/-! ## Rows that are read -/

/-- The pack of a row that was read holds a row for every table below. -/
theorem Shape.places_subset_held {shape : Shape} (hkeyed : shape.Keyed)
    (hbelow : ∀ place ∈ shape.places, place.2.names.Nodup) {cells : Row} {whole : Entries Json}
    (hwhole : ∀ key ∈ shape.keys, whole.get? key = (shape.rowPack cells).1.get? key) :
    ∀ part ∈ shape.places, ∃ row ∈ shape.heldBelow whole, row.shape = part.2 := by
  induction shape generalizing cells whole with
  | nil => exact fun part hpart => absurd hpart List.not_mem_nil
  | leaf column rest ih => exact ih hkeyed.2 hbelow (Relabels.find_leaf hkeyed hwhole).2
  | branch column placed inner rest ihInner ihRest =>
    simp only [places, List.cons_append, List.forall_mem_cons, List.forall_mem_append] at hbelow ⊢
    obtain ⟨-, hbelowInner, hbelowRest⟩ := hbelow
    obtain ⟨-, hobject, htail⟩ := Relabels.find_row hkeyed
      (renames_rowPack hbelowRest (inner.rowPack cells).2).relabels hwhole
    rw [heldBelow_row hobject]
    refine ⟨⟨_, List.mem_cons_self, rfl⟩, fun part hpart => ?_, fun part hpart => ?_⟩
    · obtain ⟨row, hrow, hshape⟩ := ihInner hkeyed.2.2.1 hbelowInner (fun _ _ => rfl) part hpart
      exact ⟨row, List.mem_cons_of_mem _ (List.mem_append_left _ hrow), hshape⟩
    · obtain ⟨row, hrow, hshape⟩ := ihRest hkeyed.2.2.2 hbelowRest htail part hpart
      exact ⟨row, List.mem_cons_of_mem _ (List.mem_append_right _ hrow), hshape⟩

/-- No visible column of the table belongs to its primary key. -/
def Table.Keyless (table : Table) : Prop :=
  ∀ column ∈ table.visibleColumns, column.isPrimary = false

/-- No two visible columns of the table show under the same name. -/
def Table.PrimariesApart (table : Table) : Prop :=
  (table.visibleColumns.map fun column => column.displayName.primary).Nodup

instance (table : Table) : Decidable table.PrimariesApart :=
  inferInstanceAs (Decidable (List.Nodup _))

/-- A shape that presents the columns of a table has its primary key. -/
theorem Shape.keyColumns_eq_nil_iff {schema : Schema} {index : Nat} {lead : String} {shape : Shape}
    {columns : List Column} (h : List.Forall₂ (schema.Presents index lead) columns shape.nodes) :
    shape.keyColumns = [] ↔ ∀ column ∈ columns, column.isPrimary = false := by
  rw [keyColumns, List.filter_eq_nil_iff, columns_of_presents h, List.forall_mem_map]
  simp only [Bool.not_eq_true]
  exact Iff.rfl

namespace Resource

variable {schema : Schema} {root : Table} {resource : Resource}

/-- Where keys are apart, the shape has the tables of the resource and their columns. -/
theorem faithful_of_apart (hcompile : compile schema root = .ok resource)
    (hapart : ∀ table ∈ resource.tables, schema.KeysApart table) : resource.Faithful schema := by
  obtain ⟨expansion, hexpands, hmounted, -⟩ := mounted_of_compile hcompile
  exact faithful_of_shape_eq hmounted hexpands (shape_eq hmounted hexpands hapart)

theorem Faithful.mem_tables_iff (h : resource.Faithful schema) {table : Table} :
    table ∈ resource.tables ↔ ∃ part ∈ resource.submodels, part.1.table = table := by
  rw [← h.tables, List.mem_map]

/-- A table of a faithful resource is keyless when its shape is. -/
theorem Faithful.keyless_iff (h : resource.Faithful schema) {part : Placed × Shape}
    (hpart : part ∈ resource.submodels) : part.2.keyColumns = [] ↔ part.1.table.Keyless := by
  obtain ⟨lead, hnodes⟩ := h.nodes part hpart
  exact Shape.keyColumns_eq_nil_iff hnodes

/-- Where no two columns of a table show under one name, neither do those of its shape. -/
theorem Faithful.namesApart (h : resource.Faithful schema)
    (hnames : ∀ table ∈ resource.tables, table.PrimariesApart) : resource.shape.NamesApart := by
  have hpart : ∀ part ∈ resource.submodels, part.2.names.Nodup := by
    intro part hpart
    obtain ⟨lead, hnodes⟩ := h.nodes part hpart
    have hprimaries := hnames part.1.table (h.mem_tables_iff.2 ⟨part, hpart, rfl⟩)
    rw [Shape.names, Shape.columns_of_presents hnodes, List.map_map]
    have hleads := hprimaries.map fun _ _ => (String.append_right_inj lead).1
    rwa [List.map_map] at hleads
  exact ⟨hpart _ List.mem_cons_self,
    fun place hplace => hpart place (List.mem_cons_of_mem _ hplace)⟩

/-- **New packs can be inserted.** The pack of a new row has all values that its statements
need, and is renamed back for the answer. -/
theorem inserts_of_newPack {σ : Type} {draw : IdGenerator → StateM σ Json}
    (hcompile : compile schema root = .ok resource)
    (hapart : ∀ table ∈ resource.tables, schema.KeysApart table) {payload pack : Entries Json}
    {before after : σ} (h : outcome (resource.newPack draw payload) before = (.ok pack, after)) :
    ∃ insertions, resource.inserts pack = .ok insertions := by
  obtain ⟨reply, hrenames⟩ := renames_newPack h
  obtain ⟨statements, hstatements⟩ :=
    (hrenames.complete (keyed hcompile) fun _ _ => rfl).inserts (bound hcompile hapart)
  rw [inserts, hstatements]
  exact ⟨_, rfl⟩

/-- **Rows that are read can be deleted.** The payload of a row is renamed to a pack, and the
pack is deleted, unless some table of the resource has no primary key to delete it by. -/
theorem deletes_of_unpack (hcompile : compile schema root = .ok resource)
    (hapart : ∀ table ∈ resource.tables, schema.KeysApart table)
    (hprimaries : ∀ table ∈ resource.tables, table.PrimariesApart) {row : Row}
    {payload : Entries Json} (hunpack : resource.unpack row = .ok payload) :
    ∃ pack, resource.packOf payload = .ok pack ∧
      (((∀ table ∈ resource.tables, ¬ table.Keyless) ∧
          ∃ deletions, resource.deletes pack = .ok deletions) ∨
        ∃ table ∈ resource.tables, table.Keyless ∧
          resource.deletes pack =
            .error (.integrity (.nothingToDeleteBy table.qualifiedName))) := by
  have hkeyed := keyed hcompile
  have hbound := bound hcompile hapart
  have hfaithful := faithful_of_apart hcompile hapart
  have hnames := hfaithful.namesApart hprimaries
  have hrenames := Shape.renames_rowPack hnames.below row
  have hcomplete := hrenames.complete hkeyed fun _ _ => rfl
  have hpayload : payload = (resource.shape.unpack row).1 := by
    unfold unpack at hunpack
    split at hunpack
    · rw [Shape.ofList_unpack hnames.own] at hunpack
      exact (Except.ok.inj hunpack).symm
    · cases hunpack
  refine ⟨_, hpayload ▸ packOf_of_renames hnames hrenames, ?_⟩
  have hkeyless : ∀ part ∈ resource.submodels, part.2.keyColumns = [] →
      part.1.table ∈ resource.tables ∧ part.1.table.Keyless := fun part hpart hkeys =>
    ⟨hfaithful.mem_tables_iff.2 ⟨part, hpart, rfl⟩, (hfaithful.keyless_iff hpart).1 hkeys⟩
  rcases hcomplete.deletion hbound resource.root.table with ⟨first, hfirst⟩ | ⟨hkeys, hfault⟩
  · rcases hcomplete.deletesBelow hbound with ⟨below, hbelow⟩ | ⟨part, hpart, hkeys, hfault⟩
    · have hdeletes : resource.deletes (resource.shape.rowPack row).1 = .ok (first :: below) := by
        rw [deletes, hfirst, hbelow]
        rfl
      refine .inl ⟨fun table htable hnone => ?_, _, hdeletes⟩
      obtain ⟨part, hpart, rfl⟩ := hfaithful.mem_tables_iff.1 htable
      have hkeys := (hfaithful.keyless_iff hpart).2 hnone
      have hheld : ∃ held ∈ resource.held (resource.shape.rowPack row).1, held.shape = part.2 := by
        rcases List.mem_cons.1 hpart with rfl | hpart
        · exact ⟨_, List.mem_cons_self, rfl⟩
        · obtain ⟨held, hmem, hshape⟩ :=
            Shape.places_subset_held hkeyed hnames.below (fun _ _ => rfl) part hpart
          exact ⟨held, List.mem_cons_of_mem _ hmem, hshape⟩
      obtain ⟨held, hmem, hshape⟩ := hheld
      obtain ⟨_, -, hdeleted⟩ := exists_of_forall₂_left (deletedBy_deletes hdeletes) hmem
      exact hdeleted.2.1 (hshape ▸ hkeys)
    · obtain ⟨hmem, hnone⟩ := hkeyless part (List.mem_cons_of_mem _ hpart) hkeys
      refine .inr ⟨part.1.table, hmem, hnone, ?_⟩
      rw [deletes, hfirst, hfault]
      rfl
  · obtain ⟨hmem, hnone⟩ := hkeyless _ List.mem_cons_self hkeys
    refine .inr ⟨resource.root.table, hmem, hnone, ?_⟩
    rw [deletes, hfault]
    rfl

end Resource

end TableApi
