import TableApi.Proofs.Mounting
import TableApi.Proofs.Deleting.KeyColumns

/-!
# Mounting trimmed tables

A trim takes something away from tables: it changes which columns a table carries and
where columns lead to, and leaves every name, key and type as it is. Mounting looks at the
columns and relations of a table only to find the next table. So where the relations of
one schema lead to the trimmed targets of another (`Trim.Carries`), the two mount alike:
whatever mounting comes to in the one, fault or tables, is the trim of what it comes to in
the other (`Trim.Carries.mountTable_eq`), through all limits of the walk.

`Resource.View` is what is left of a resource when all that a trim may change is taken
away. Trimming does not change it (`Trim.view_resource`).
-/

namespace TableApi

/-- What is taken away from tables: a change of the columns that a table carries, and of the
relation of a column. -/
structure Trim where
  relation : Option ColumnRef → Option ColumnRef
  columns : List Column → List Column

namespace Trim

variable (trim : Trim)

def column (column : Column) : Column :=
  { column with relation := trim.relation column.relation }

def table (table : Table) : Table :=
  { table with columns := trim.columns table.columns }

def placed (placed : Placed) : Placed :=
  ⟨placed.index, trim.table placed.table⟩

def shape : Shape → Shape
  | .nil => .nil
  | .leaf column rest => .leaf (trim.column column) (shape rest)
  | .branch column placed inner rest =>
    .branch (trim.column column) (trim.placed placed) (shape inner) (shape rest)

mutual

def slot : Slot → Slot
  | .column column => .column (trim.column column)
  | .branch placed entries => .branch (trim.placed placed) (slots entries)

def slots : List (String × Slot) → List (String × Slot)
  | [] => []
  | (key, entry) :: rest => (key, slot entry) :: slots rest

end

def mounted (mounted : Mounted) : Mounted :=
  { root := trim.placed mounted.root
    below := mounted.below.map trim.table
    joins := mounted.joins
    required := mounted.required
    entries := trim.slots mounted.entries }

def grown (grown : Grown) : Grown :=
  { grown with
    below := grown.below.map trim.table
    entries := trim.slots grown.entries }

def resource (resource : Resource) : Resource :=
  ⟨trim.mounted resource.toMounted⟩

end Trim

/-! ## Entries and shapes -/

theorem Entries.put_map {α β : Type} (f : α → β) (entries : Entries α) (key : String) (value : α) :
    Entries.put (entries.map fun entry => (entry.1, f entry.2)) key (f value) =
      (entries.put key value).map fun entry => (entry.1, f entry.2) := by
  induction entries with
  | nil => rfl
  | cons entry rest ih =>
    obtain ⟨k, v⟩ := entry
    rw [List.map_cons, put, put, ih]
    split <;> rfl

/-- Entries may be changed before or after they are written. -/
theorem Entries.ofList_map {α β : Type} (f : α → β) (pairs : List (String × α)) :
    Entries.ofList (pairs.map fun pair => (pair.1, f pair.2)) =
      (Entries.ofList pairs).map fun entry => (entry.1, f entry.2) := by
  have hfold : ∀ entries : Entries α,
      (pairs.map fun pair => (pair.1, f pair.2)).foldl
          (fun entries pair => Entries.put entries pair.1 pair.2)
          (entries.map fun entry => (entry.1, f entry.2)) =
        (pairs.foldl (fun entries pair => Entries.put entries pair.1 pair.2) entries).map
          fun entry => (entry.1, f entry.2) := by
    induction pairs with
    | nil => exact fun _ => rfl
    | cons pair rest ih =>
      intro entries
      rw [List.map_cons, List.foldl_cons, List.foldl_cons, Entries.put_map, ih]
  exact hfold []

namespace Trim

variable (trim : Trim)

theorem slots_eq_map (entries : List (String × Slot)) :
    trim.slots entries = entries.map fun entry => (entry.1, trim.slot entry.2) := by
  induction entries with
  | nil => rfl
  | cons entry rest ih =>
    obtain ⟨key, slot⟩ := entry
    rw [slots, ih]
    rfl

theorem slots_ofList (pairs : List (String × Slot)) :
    Entries.ofList (trim.slots pairs) = trim.slots (Entries.ofList pairs) := by
  rw [slots_eq_map, Entries.ofList_map, slots_eq_map]

/-- What a branch opens, with its tables and columns trimmed. -/
def opened (found : Placed × Shape) : Placed × Shape :=
  (trim.placed found.1, trim.shape found.2)

theorem link_slots (branches : Entries (Placed × Shape)) (entries : List (String × Slot)) :
    Slot.link (branches.map fun branch => (branch.1, trim.opened branch.2)) (trim.slots entries) =
      trim.shape (Slot.link branches entries) := by
  induction entries with
  | nil => rfl
  | cons entry rest ih =>
    obtain ⟨key, _ | ⟨placed, below⟩⟩ := entry
    · rw [slots, slot, Slot.link, Slot.link, Entries.get?_map, ih]
      cases branches.get? (branchKey key) <;> rfl
    · exact ih

mutual

/-- A trimmed branch opens what it opened, trimmed. -/
theorem opened?_slot : ∀ entry : Slot,
    Slot.opened? (trim.slot entry) = (Slot.opened? entry).map trim.opened
  | .column _ => rfl
  | .branch placed entries => by
    rw [slot, Slot.opened?, Slot.opened?, branches_slots entries, trim.link_slots]
    rfl

theorem branches_slots : ∀ entries : List (String × Slot),
    Slot.branches (trim.slots entries) =
      (Slot.branches entries).map fun branch => (branch.1, trim.opened branch.2)
  | [] => rfl
  | (key, entry) :: rest => by
    rw [slots, Slot.branches, Slot.branches, opened?_slot entry, branches_slots rest]
    cases Slot.opened? entry <;> rfl

end

/-- The tree of trimmed entries is the trimmed tree. -/
theorem shape_slots (entries : Entries Slot) :
    Slot.shape (trim.slots entries) = trim.shape (Slot.shape entries) := by
  rw [Slot.shape, branches_slots, link_slots]
  rfl

theorem leaves_shape (shape : Shape) :
    (trim.shape shape).leaves = shape.leaves.map trim.column := by
  induction shape with
  | nil => rfl
  | leaf column rest ih => exact congrArg (trim.column column :: ·) ih
  | branch column placed inner rest ihInner ihRest =>
    rw [Trim.shape, Shape.leaves, Shape.leaves, ihInner, ihRest, List.map_append]

theorem typePairs_shape (shape : Shape) : (trim.shape shape).typePairs = shape.typePairs := by
  induction shape with
  | nil => rfl
  | leaf column rest ih => exact congrArg (_ :: ·) ih
  | branch column placed inner rest ihInner ihRest =>
    rw [Trim.shape, Shape.typePairs, Shape.typePairs, ihInner, ihRest]
    rfl

end Trim

/-! ## Mounting -/

namespace Trim

variable {trim : Trim} {source target : Schema}

/-- The relations of a schema lead to the trimmed tables of another, from every table that
is reached. -/
structure Carries (trim : Trim) (source target : Schema) (reached : Table → Prop) : Prop where
  columns : ∀ table, reached table →
    (trim.table table).visibleColumns = table.visibleColumns.map trim.column
  live : ∀ table, reached table → ∀ column ∈ table.visibleColumns,
    target.liveTarget? (trim.column column) =
      (source.liveTarget? column).map (Option.map (Prod.map trim.table id))
  closed : ∀ table, reached table → ∀ column ∈ table.visibleColumns, ∀ found referenced,
    source.liveTarget? column = .ok (some (found, referenced)) → reached found

/-- Columns are mounted alike when their targets are. -/
theorem mountColumns_map {mount mount' : Nat → String → Table → Except SchemaFault Mounted}
    {owner lead : String} {next : Nat} {columns : List Column}
    (hlive : ∀ column ∈ columns, target.liveTarget? (trim.column column) =
      (source.liveTarget? column).map (Option.map (Prod.map trim.table id)))
    (hbelow : ∀ column ∈ columns, ∀ found referenced,
      source.liveTarget? column = .ok (some (found, referenced)) →
      ∀ next lead, mount' next lead (trim.table found) = (mount next lead found).map trim.mounted) :
    target.mountColumns mount' owner lead next (columns.map trim.column) =
      (source.mountColumns mount owner lead next columns).map trim.grown := by
  induction columns generalizing next with
  | nil => rfl
  | cons column rest ih =>
    have hothers : ∀ next, target.mountColumns mount' owner lead next (rest.map trim.column) =
        (source.mountColumns mount owner lead next rest).map trim.grown := fun next =>
      ih (fun other hother => hlive other (List.mem_cons_of_mem _ hother))
        fun other hother => hbelow other (List.mem_cons_of_mem _ hother)
    have hfirst : target.liveTarget? ((trim.column column).mounted owner lead) =
        (source.liveTarget? (column.mounted owner lead)).map
          (Option.map (Prod.map trim.table id)) := hlive column List.mem_cons_self
    have hchild := hbelow column List.mem_cons_self
    rw [List.map_cons, Schema.mountColumns, Schema.mountColumns, hfirst]
    cases htarget : source.liveTarget? (column.mounted owner lead) with
    | error fault => rfl
    | ok live =>
      rcases live with _ | ⟨found, referenced⟩
      · show (target.mountColumns mount' owner lead next (rest.map trim.column)).bind _ = _
        rw [hothers]
        cases source.mountColumns mount owner lead next rest <;> rfl
      · show (mount' next ((column.mounted owner lead).displayName.primary ++ "_")
            (trim.table found)).bind _ =
          Except.map _ ((mount next ((column.mounted owner lead).displayName.primary ++ "_")
            found).bind _)
        rw [hchild found referenced htarget]
        cases mount next ((column.mounted owner lead).displayName.primary ++ "_") found with
        | error fault => rfl
        | ok child =>
          have hlength : (trim.mounted child).below.length = child.below.length :=
            List.length_map _
          show (target.mountColumns mount' owner lead (next + 1 + (trim.mounted child).below.length)
              (rest.map trim.column)).bind _ =
            Except.map _ ((source.mountColumns mount owner lead
              (next + 1 + child.below.length) rest).bind _)
          rw [hlength, hothers]
          cases source.mountColumns mount owner lead (next + 1 + child.below.length) rest with
          | error fault => rfl
          | ok others =>
            simp only [Except.map, Except.bind, Trim.grown, List.map_append, List.map_cons]
            rfl

/-- **Trimmed tables mount alike.** What mounting a trimmed table comes to is the trim of what
mounting the table comes to. -/
theorem Carries.mountTable_eq {reached : Table → Prop} (h : trim.Carries source target reached)
    {table : Table} (hreached : reached table) (hops : Nat) (inside : List String) (index : Nat)
    (lead : String) :
    target.mountTable hops inside index lead (trim.table table) =
      (source.mountTable hops inside index lead table).map trim.mounted := by
  induction hops generalizing table inside index lead with
  | zero =>
    unfold Schema.mountTable
    show (if inside.contains table.qualifiedName then _ else _) = _
    split <;> rfl
  | succ hops ih =>
    have hcolumns : target.mountColumns (target.mountTable hops (inside ++ [table.qualifiedName]))
          (tableAlias index) lead (index + 1) (trim.table table).visibleColumns =
        (source.mountColumns (source.mountTable hops (inside ++ [table.qualifiedName]))
          (tableAlias index) lead (index + 1) table.visibleColumns).map trim.grown := by
      rw [h.columns table hreached]
      exact mountColumns_map (h.live table hreached)
        fun column hcolumn found referenced hlive next lead =>
          ih (h.closed table hreached column hcolumn found referenced hlive) _ next lead
    unfold Schema.mountTable
    show (if inside.contains table.qualifiedName then _ else
      if maxTables ≤ index then _ else (target.mountColumns (target.mountTable hops
        (inside ++ [table.qualifiedName])) (tableAlias index) lead (index + 1)
          (trim.table table).visibleColumns).bind _) = _
    rw [hcolumns]
    split
    · rfl
    · split
      · rfl
      · show _ = Except.map _ ((source.mountColumns _ _ _ _ _).bind _)
        cases source.mountColumns (source.mountTable hops (inside ++ [table.qualifiedName]))
            (tableAlias index) lead (index + 1) table.visibleColumns with
        | error fault => rfl
        | ok grown =>
          show Except.ok _ = Except.ok (trim.mounted _)
          simp only [Trim.mounted, Trim.grown, slots_ofList]
          rfl

/-! ## Resources -/

theorem sharedName?_map (trim : Trim) (columns : List Column) :
    sharedName? (columns.map trim.column) = sharedName? columns := by
  induction columns with
  | nil => rfl
  | cons column rest ih =>
    rw [List.map_cons, sharedName?, sharedName?, ih, List.any_map]
    rfl

theorem ofMounted_trim (trim : Trim) (mounted : Mounted) :
    Resource.ofMounted (trim.mounted mounted) =
      (Resource.ofMounted mounted).map trim.resource := by
  have hleaves : (Resource.mk (trim.mounted mounted)).shape.leaves =
      (Resource.mk mounted).shape.leaves.map trim.column := by
    rw [Resource.shape, Resource.shape, ← leaves_shape, ← shape_slots]
    rfl
  unfold Resource.ofMounted
  simp only [hleaves, List.isEmpty_map, sharedName?_map]
  split
  · rfl
  · cases sharedName? (Resource.mk mounted).shape.leaves <;> rfl

/-- Trimmed tables are compiled alike. -/
theorem Carries.compile_eq {reached : Table → Prop} (h : trim.Carries source target reached)
    {root : Table} (hreached : reached root)
    (hfound : (target.table? root.qualifiedName).isSome =
      (source.table? root.qualifiedName).isSome) :
    Resource.compile target (trim.table root) =
      (Resource.compile source root).map trim.resource := by
  unfold Resource.compile
  show (if (target.table? root.qualifiedName).isNone then _ else _) = _
  rw [← Option.not_isSome, ← Option.not_isSome, hfound, h.mountTable_eq hreached]
  split
  · rfl
  · cases source.mountTable (maxHops + 1) [] 0 "" root with
    | error fault => rfl
    | ok mounted => exact ofMounted_trim trim mounted

/-- Lists of trimmed tables have their resources alike. -/
theorem Carries.resourcesOf_eq {reached : Table → Prop} (h : trim.Carries source target reached)
    {tables : List Table} (hreached : ∀ table ∈ tables, reached table)
    (hfound : ∀ table ∈ tables, (target.table? table.qualifiedName).isSome =
      (source.table? table.qualifiedName).isSome) :
    target.resourcesOf (tables.map trim.table) =
      (source.resourcesOf tables).map (List.map trim.resource) := by
  induction tables with
  | nil => rfl
  | cons table rest ih =>
    have ih := ih (fun other hother => hreached other (List.mem_cons_of_mem _ hother))
      fun other hother => hfound other (List.mem_cons_of_mem _ hother)
    rw [List.map_cons, Schema.resourcesOf, Schema.resourcesOf,
      h.compile_eq (hreached table List.mem_cons_self) (hfound table List.mem_cons_self), ih]
    cases Resource.compile source table with
    | error fault =>
      show (if fault.skipsResource then _ else _) =
        Except.map _ (if fault.skipsResource then _ else _)
      split <;> rfl
    | ok resource =>
      show Except.bind _ _ = Except.map _ (Except.bind _ _)
      cases source.resourcesOf rest <;> rfl

/-- The trim that takes away all that a trim may take. -/
def bare : Trim where
  relation _ := none
  columns _ := []

theorem shape_bare (trim : Trim) (shape : Shape) :
    bare.shape (trim.shape shape) = bare.shape shape := by
  induction shape with
  | nil => rfl
  | leaf column rest ih => exact congrArg (Shape.leaf _) ih
  | branch column placed inner rest ihInner ihRest =>
    rw [Trim.shape, Trim.shape, Trim.shape, ihInner, ihRest]
    rfl

end Trim

/-- What a resource shows: all of it but the columns that its tables carry besides, and where
the columns of the schema lead to. -/
structure Resource.View where
  name : String
  /-- The tables with their names and aliases. -/
  tables : List Table
  joins : List Join
  /-- The columns of a row, with their names, aliases, keys and types. -/
  columns : List Column
  required : List (List String)
  /-- All columns and the tables that they open. -/
  shape : Shape
  types : Entries Json
  select : Sql.Phrase

def Resource.view (resource : Resource) : Resource.View where
  name := resource.name
  tables := resource.tables.map Trim.bare.table
  joins := resource.joins
  columns := resource.columns.map Trim.bare.column
  required := resource.required
  shape := Trim.bare.shape resource.shape
  types := resource.types
  select := resource.select

namespace Trim

variable (trim : Trim) (resource : Resource)

theorem shape_resource : (trim.resource resource).shape = trim.shape resource.shape :=
  trim.shape_slots resource.entries

theorem tables_resource : (trim.resource resource).tables = resource.tables.map trim.table := rfl

theorem columns_resource :
    (trim.resource resource).columns = resource.columns.map trim.column := by
  rw [Resource.columns, shape_resource, leaves_shape]
  rfl

theorem select_resource : (trim.resource resource).select = resource.select := by
  unfold Resource.select
  rw [columns_resource, tables_resource, List.map_map, List.map_map]
  rfl

/-- A trim changes nothing that a resource shows. -/
theorem view_resource : (trim.resource resource).view = resource.view := by
  unfold Resource.view Resource.types
  rw [shape_resource, columns_resource, tables_resource, select_resource, typePairs_shape,
    shape_bare, List.map_map, List.map_map]
  rfl

end Trim

end TableApi
