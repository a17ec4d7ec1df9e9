import TableApi.Proofs.Deleting.KeyColumns
import TableApi.Proofs.JoinTree

/-!
# When the shape of a resource is faithful

Tables and joins are listed as they are found, but the shape is read off entries that
stand under keys, a column under its qualified name and a branch under that name and
`_branch`. Where two entries of a table meet under one key, the later one replaces the
earlier, and the shape no longer agrees with the tables and joins.

`faithful_iff` says that this is the only way to lose or to invent anything: a resource
is faithful (`Resource.Faithful`) exactly when in each of its tables the keys are apart
(`Schema.KeysApart`); in a valid schema this is a condition on the names of the columns alone
(`Schema.Valid.keysApart_iff`). `branch_overwritten` shows a foreign key `customer_id`
beside a column `customer_id_branch`: the column takes the place of the branch, and the
customers that the resource joins are in no part of its shape.
-/

namespace TableApi

/-! ## What a faithful shape has -/

/-- The relations of a shape in the order of a depth-first walk: the number of the
table, the column, and the table that it opens. -/
def Shape.relations (owner : Nat) : Shape → List (Nat × Column × Placed)
  | nil => []
  | leaf _ rest => rest.relations owner
  | branch column placed inner rest =>
    (owner, column, placed) :: inner.relations placed.index ++ rest.relations owner

/-- A relation has a join when the join equates its column and the column that it
references. -/
def HasJoin (relation : Nat × Column × Placed) (join : Join) : Prop :=
  ∃ target, relation.2.1.relation = some target ∧
    join = ⟨tableAlias relation.1, relation.2.1.name, tableAlias relation.2.2.index, target.column⟩

/-- A node stands for a column of a table: it is the column as it is mounted there, and
opens a branch exactly when its relation leads to something that is not excluded. -/
def Schema.Presents (schema : Schema) (index : Nat) (lead : String) (source : Column)
    (node : Column × Option (Placed × Shape)) : Prop :=
  node.1 = source.mounted (tableAlias index) lead ∧
    (node.2.isSome ↔ ∃ target table, schema.LeadsTo source target table)

/-- The tables of the shape, each with its own shape, in the order of a depth-first
walk. -/
def Resource.submodels (resource : Resource) : List (Placed × Shape) :=
  (resource.root, resource.shape) :: resource.shape.places

/-- The shape of a resource loses and invents nothing: it has the tables of the resource
under their numbers, one node for each visible column of each table, and one relation
for each join. -/
structure Resource.Faithful (schema : Schema) (resource : Resource) : Prop where
  tables : resource.submodels.map (fun part => part.1.table) = resource.tables
  indices : resource.submodels.map (fun part => part.1.index) = List.range resource.tables.length
  nodes : ∀ part ∈ resource.submodels, ∃ lead,
    List.Forall₂ (schema.Presents part.1.index lead) part.1.table.visibleColumns part.2.nodes
  joins : List.Forall₂ HasJoin (resource.shape.relations resource.root.index) resource.joins

/-! ## Keys that are apart -/

/-- No two entries of a table meet under one key: its columns differ in their qualified
names, and none is named as the branch of another. -/
structure Schema.KeysApart (schema : Schema) (table : Table) : Prop where
  columns : (table.visibleColumns.map Column.qualifiedName).Nodup
  branches : ∀ column ∈ table.visibleColumns, schema.isLive column = true →
    ∀ other ∈ table.visibleColumns, other.qualifiedName ≠ column.branchKey

namespace Schema

variable {schema : Schema}

theorem isLive_iff {source : Column} :
    schema.isLive source = true ↔ ∃ target table, schema.LeadsTo source target table := by
  unfold isLive
  constructor
  · intro h
    split at h
    · next found hlive =>
      obtain ⟨target, hleads, -⟩ := liveTarget?_eq_some_iff.1 hlive
      exact ⟨target, found.1, hleads⟩
    · cases h
  · rintro ⟨target, table, hleads⟩
    rw [liveTarget?_eq_some_iff.2 ⟨target, hleads, rfl⟩]

/-- The keys that columns write to. -/
theorem mem_keys_written {columns : List Column} {key : String} :
    key ∈ (schema.written columns).map Prod.fst ↔
      ∃ column ∈ columns, key = column.qualifiedName ∨
        (schema.isLive column = true ∧ key = column.branchKey) := by
  induction columns with
  | nil => simp [written]
  | cons column rest ih =>
    rw [written, List.map_append, List.mem_append, ih]
    cases hlive : schema.isLive column <;> simp [hlive, or_assoc]

/-- Keys do not depend on the alias under which a table is mounted. -/
theorem keysApart_placedAt {table : Table} {index : Nat} :
    schema.KeysApart (table.placedAt index).table ↔ schema.KeysApart table :=
  ⟨fun h => ⟨h.columns, h.branches⟩, fun h => ⟨h.columns, h.branches⟩⟩

/-- The keys of a table are apart exactly when no key is written to twice. -/
theorem keysApart_iff_nodup {table : Table} :
    schema.KeysApart table ↔ ((schema.written table.visibleColumns).map Prod.fst).Nodup := by
  suffices h : ∀ columns : List Column,
      ((columns.map Column.qualifiedName).Nodup ∧ ∀ column ∈ columns, schema.isLive column = true →
        ∀ other ∈ columns, other.qualifiedName ≠ column.branchKey) ↔
      ((schema.written columns).map Prod.fst).Nodup by
    rw [← h]
    exact ⟨fun hapart => ⟨hapart.columns, hapart.branches⟩, fun hapart => ⟨hapart.1, hapart.2⟩⟩
  intro columns
  induction columns with
  | nil => simp [written]
  | cons column rest ih =>
    have hwritten : ((schema.written (column :: rest)).map Prod.fst).Nodup ↔
        column.qualifiedName ∉ (schema.written rest).map Prod.fst ∧
          (schema.isLive column = true →
            column.branchKey ∉ (schema.written rest).map Prod.fst) ∧
          ((schema.written rest).map Prod.fst).Nodup := by
      have hne : column.qualifiedName ≠ column.branchKey := (branchKey_ne _).symm
      rw [written, List.map_append]
      cases hlive : schema.isLive column <;> simp [hne]
    rw [hwritten, ← ih, mem_keys_written, mem_keys_written]
    constructor
    · rintro ⟨hnodup, hbranches⟩
      rw [List.map_cons, List.nodup_cons] at hnodup
      have hown : ∀ other ∈ rest, column.qualifiedName ≠ other.qualifiedName :=
        fun other hother heq => hnodup.1 (heq ▸ List.mem_map_of_mem hother)
      refine ⟨?_, ?_, hnodup.2, ?_⟩
      · rintro ⟨other, hother, heq | ⟨hlive, heq⟩⟩
        · exact hown other hother heq
        · exact hbranches other (List.mem_cons_of_mem _ hother) hlive column List.mem_cons_self heq
      · rintro hlive ⟨other, hother, heq | ⟨-, heq⟩⟩
        · exact hbranches column List.mem_cons_self hlive other (List.mem_cons_of_mem _ hother)
            heq.symm
        · exact hown other hother (branchKey_inj heq)
      · intro first hfirst hlive other hother
        exact hbranches first (List.mem_cons_of_mem _ hfirst) hlive other
          (List.mem_cons_of_mem _ hother)
    · rintro ⟨hown, hbranch, hnodup, hbranches⟩
      constructor
      · rw [List.map_cons, List.nodup_cons]
        refine ⟨fun hmem => ?_, hnodup⟩
        obtain ⟨other, hother, heq⟩ := List.mem_map.1 hmem
        exact hown ⟨other, hother, .inl heq.symm⟩
      · intro first hfirst hlive other hother heq
        rcases List.mem_cons.1 hfirst with rfl | hfirstRest
        · rcases List.mem_cons.1 hother with rfl | hotherRest
          · exact branchKey_ne _ heq.symm
          · exact hbranch hlive ⟨other, hotherRest, .inl heq.symm⟩
        · rcases List.mem_cons.1 hother with rfl | hotherRest
          · exact hown ⟨first, hfirstRest, .inr ⟨hlive, heq⟩⟩
          · exact hbranches first hfirstRest hlive other hotherRest heq

instance (table : Table) : Decidable (schema.KeysApart table) :=
  decidable_of_iff _ keysApart_iff_nodup.symm

end Schema

/-! ## A faithful shape keeps its keys apart -/

namespace Shape

theorem Keyed.nodup_keys {shape : Shape} (h : shape.Keyed) : shape.keys.Nodup := by
  induction shape with
  | nil => exact List.nodup_nil
  | leaf column rest ih => exact List.nodup_cons.2 ⟨h.1, ih h.2⟩
  | branch column placed inner rest _ ih =>
    obtain ⟨hname, hbranch, -, hrest⟩ := h
    have hne : column.qualifiedName ≠ column.branchKey := (branchKey_ne _).symm
    simp [keys, hne, hname, hbranch, ih hrest]

theorem Keyed.of_place {shape : Shape} (h : shape.Keyed) {placed : Placed} {inner : Shape}
    (hplace : (placed, inner) ∈ shape.places) : inner.Keyed := by
  induction shape with
  | nil => cases hplace
  | leaf column rest ih => exact ih h.2 hplace
  | branch column found below rest ihBelow ihRest =>
    obtain ⟨-, -, hbelow, hrest⟩ := h
    rw [places, List.cons_append, List.mem_cons, List.mem_append] at hplace
    rcases hplace with heq | hplace | hplace
    · cases heq
      exact hbelow
    · exact ihBelow hbelow hplace
    · exact ihRest hrest hplace

/-- The keys of a shape that presents columns are those that the columns write to. -/
theorem keys_eq_written {schema : Schema} {index : Nat} {lead : String} {shape : Shape}
    {columns : List Column} (h : List.Forall₂ (schema.Presents index lead) columns shape.nodes) :
    shape.keys = (schema.written columns).map Prod.fst := by
  induction shape generalizing columns with
  | nil =>
    cases h
    rfl
  | leaf column rest ih =>
    rcases h with _ | ⟨⟨rfl, hopens⟩, hrest⟩
    next source sources =>
    have hlive : schema.isLive source = false := by
      rw [← Bool.not_eq_true, Schema.isLive_iff, ← hopens]
      simp
    rw [Schema.written, hlive, List.map_append, ← ih hrest]
    rfl
  | branch column placed inner rest _ ih =>
    rcases h with _ | ⟨⟨rfl, hopens⟩, hrest⟩
    next source sources =>
    have hlive : schema.isLive source = true := Schema.isLive_iff.2 (hopens.1 rfl)
    rw [Schema.written, hlive, List.map_append, ← ih hrest]
    rfl

end Shape

/-- Every table of a faithful resource has its keys apart. -/
theorem Resource.Faithful.keysApart {schema : Schema} {resource : Resource}
    (h : resource.Faithful schema) (hkeyed : resource.shape.Keyed) {table : Table}
    (htable : table ∈ resource.tables) : schema.KeysApart table := by
  rw [← h.tables] at htable
  obtain ⟨part, hpart, rfl⟩ := List.mem_map.1 htable
  obtain ⟨lead, hnodes⟩ := h.nodes part hpart
  have hpartKeyed : part.2.Keyed := by
    rcases List.mem_cons.1 hpart with rfl | hplace
    · exact hkeyed
    · exact hkeyed.of_place hplace
  rw [Schema.keysApart_iff_nodup, ← Shape.keys_eq_written hnodes]
  exact hpartKeyed.nodup_keys

/-! ## Keys that are apart keep the shape -/

/-- The branches of a table's own columns, under their keys. -/
def Shape.opened (shape : Shape) : Entries (Placed × Shape) :=
  shape.nodes.filterMap fun node => node.2.map (node.1.branchKey, ·)

/-- Where no two nodes share a qualified name, every branch is found under the key of its
column. -/
theorem Shape.get?_opened {shape : Shape}
    (hnames : (shape.nodes.map fun node => node.1.qualifiedName).Nodup)
    {node : Column × Option (Placed × Shape)} (hnode : node ∈ shape.nodes) :
    shape.opened.get? node.1.branchKey = node.2 := by
  unfold opened
  generalize shape.nodes = nodes at hnames hnode
  induction nodes with
  | nil => cases hnode
  | cons first rest ih =>
    rw [List.map_cons, List.nodup_cons] at hnames
    obtain ⟨hfirst, hrest⟩ := hnames
    -- A branch that is found is one of the nodes, and no other node has its name.
    have hmissing : ∀ own : Column, own.qualifiedName ∉ rest.map (fun n => n.1.qualifiedName) →
        Entries.get? (rest.filterMap fun n => n.2.map (n.1.branchKey, ·)) own.branchKey = none := by
      intro own hown
      rw [Entries.get?_eq_none_iff]
      intro hmem
      obtain ⟨⟨key, opened⟩, hopened, rfl⟩ := List.mem_map.1 hmem
      obtain ⟨other, hother, hmap⟩ := List.mem_filterMap.1 hopened
      obtain ⟨_, -, heq⟩ := Option.map_eq_some_iff.1 hmap
      have hname : other.1.qualifiedName = own.qualifiedName :=
        branchKey_inj (congrArg Prod.fst heq)
      exact hown (hname ▸ List.mem_map.2 ⟨other, hother, rfl⟩)
    rcases List.mem_cons.1 hnode with rfl | hnode
    · cases hopen : node.2 with
      | none => simpa [hopen] using hmissing node.1 hfirst
      | some opened => simp [hopen, Entries.get?_cons]
    · have hne : first.1.branchKey ≠ node.1.branchKey := by
        intro heq
        have hname : first.1.qualifiedName = node.1.qualifiedName := branchKey_inj heq
        exact hfirst (hname ▸ List.mem_map.2 ⟨node, hnode, rfl⟩)
      cases hopen : first.2 with
      | none => simpa [hopen] using ih hrest hnode
      | some opened => simpa [hopen, Entries.get?_cons, hne] using ih hrest hnode

namespace Expansion

/-- The keys that an expansion writes to at its own level. -/
def keys : Expansion → List String
  | nil => []
  | plain source rest => source.qualifiedName :: rest.keys
  | follow source _ _ _ rest => source.qualifiedName :: source.branchKey :: rest.keys

/-- The keys of each table below are apart. -/
def Apart : Expansion → Prop
  | nil => True
  | plain _ rest => rest.Apart
  | follow _ _ _ inner rest => inner.keys.Nodup ∧ inner.Apart ∧ rest.Apart

variable (expansion : Expansion) (owner next : Nat) (path : List Column)

theorem keys_grown : Entries.keys (expansion.grown owner next path).entries = expansion.keys := by
  induction expansion generalizing owner next path with
  | nil => rfl
  | plain source rest ih =>
    rw [keys, ← ih owner next path]
    rfl
  | follow source table referenced inner rest _ ih =>
    rw [keys, ← ih owner (next + 1 + inner.size) path]
    rfl

theorem names_sublist_keys :
    ((expansion.shape owner next path).nodes.map fun node => node.1.qualifiedName).Sublist
      expansion.keys := by
  induction expansion generalizing owner next path with
  | nil => exact List.Sublist.slnil
  | plain source rest ih => exact (ih owner next path).cons_cons _
  | follow source table referenced inner rest _ ih => exact ((ih owner _ path).cons _).cons_cons _

variable {expansion owner next path}

/-- Entries whose branches are those of a shape link to that shape. -/
theorem link_grown {found : Entries (Placed × Shape)}
    (hfound : ∀ node ∈ (expansion.shape owner next path).nodes,
      found.get? node.1.branchKey = node.2) :
    Slot.link found (expansion.grown owner next path).entries =
      expansion.shape owner next path := by
  induction expansion generalizing owner next path with
  | nil => rfl
  | plain source rest ih =>
    have hown := hfound _ List.mem_cons_self
    have hrest := ih fun node hnode => hfound node (List.mem_cons_of_mem _ hnode)
    simp only [Column.branchKey] at hown
    simp only [grown, Slot.link, hown, hrest]
    rfl
  | follow source table referenced inner rest _ ih =>
    have hown := hfound _ List.mem_cons_self
    have hrest := ih fun node hnode => hfound node (List.mem_cons_of_mem _ hnode)
    simp only [Column.branchKey] at hown
    simp only [grown, Slot.link, hown, hrest]
    rfl

/-- Entries that stand apart are read back as they were written, if their branches
are. -/
theorem shape_grown_of_branches (hkeys : expansion.keys.Nodup)
    (hbranches : Slot.branches (expansion.grown owner next path).entries =
      (expansion.shape owner next path).opened) :
    Slot.shape (Entries.ofList (expansion.grown owner next path).entries) =
      expansion.shape owner next path := by
  have hnodup : (Entries.keys (expansion.grown owner next path).entries).Nodup := by
    rwa [keys_grown]
  rw [Entries.ofList_eq_self hnodup, Slot.shape, hbranches]
  have hnames := hkeys.sublist (names_sublist_keys expansion owner next path)
  exact link_grown fun node hnode => Shape.get?_opened hnames hnode

variable (owner next path) in
theorem branches_grown (hapart : expansion.Apart) :
    Slot.branches (expansion.grown owner next path).entries =
      (expansion.shape owner next path).opened := by
  induction expansion generalizing owner next path with
  | nil => rfl
  | plain source rest ih =>
    have hrest := ih owner next path hapart
    simp only [grown, Slot.branches, Slot.opened?, hrest]
    rfl
  | follow source table referenced inner rest ihInner ihRest =>
    obtain ⟨hkeys, hinner, hrest⟩ := hapart
    have hshape := shape_grown_of_branches hkeys
      (ihInner next (next + 1) (path ++ [source]) hinner)
    have hothers := ihRest owner (next + 1 + inner.size) path hrest
    simp only [grown, Slot.branches, Slot.opened?_branch, hshape, hothers]
    rfl

/-- **Nothing is lost where keys are apart.** The tree that is read off the entries is
the tree of the expansion. -/
theorem shape_grown (hkeys : expansion.keys.Nodup) (hapart : expansion.Apart) :
    Slot.shape (Entries.ofList (expansion.grown owner next path).entries) =
      expansion.shape owner next path :=
  shape_grown_of_branches hkeys (branches_grown owner next path hapart)

variable (expansion owner next path) in
/-- The tree has the tables of the foreign keys that are followed, in their order. -/
theorem places_shape :
    (expansion.shape owner next path).places.map Prod.fst =
      (expansion.hops owner next).map Hop.placed := by
  induction expansion generalizing owner next path with
  | nil => rfl
  | plain source rest ih => exact ih owner next path
  | follow source table referenced inner rest ihInner ihRest =>
    simp only [shape, Shape.places, hops, List.map_append, List.map_cons, ihInner, ihRest]
    rfl

end Expansion

namespace Schema

variable {schema : Schema} {columns : List Column} {expansion : Expansion}

theorem Expands.keys_eq (h : schema.Expands columns expansion) :
    expansion.keys = (schema.written columns).map Prod.fst := by
  induction h with
  | nil => rfl
  | @plain source rest others hlive hrest ih =>
    have hshut : schema.isLive source = false := by rw [isLive, hlive]
    rw [Expansion.keys, written, hshut, List.map_append, ← ih]
    rfl
  | @follow source rest table referenced inner others hlive hinner hrest ihInner ihRest =>
    have hopen : schema.isLive source = true := by rw [isLive, hlive]
    rw [Expansion.keys, written, hopen, List.map_append, ← ihRest]
    rfl

/-- Keys that are apart in every table that is followed are apart in the expansion. -/
theorem Expands.apart (h : schema.Expands columns expansion) {owner next : Nat}
    (hbelow : ∀ hop ∈ expansion.hops owner next, schema.KeysApart hop.table) :
    expansion.Apart := by
  induction h generalizing owner next with
  | nil => exact True.intro
  | plain hlive hrest ih => exact ih hbelow
  | @follow source rest table referenced inner others hlive hinner hrest ihInner ihRest =>
    rw [Expansion.hops, List.cons_append, List.forall_mem_cons, List.forall_mem_append] at hbelow
    obtain ⟨htable, hbelowInner, hbelowRest⟩ := hbelow
    refine ⟨?_, ihInner hbelowInner, ihRest hbelowRest⟩
    rw [hinner.keys_eq, ← keysApart_iff_nodup]
    exact htable

/-- The tree of an expansion presents its columns. -/
theorem Expands.nodes_shape (h : schema.Expands columns expansion) (owner next : Nat)
    (path : List Column) :
    List.Forall₂ (schema.Presents owner (leadOf path)) columns
      (expansion.shape owner next path).nodes := by
  induction h generalizing owner next path with
  | nil => exact .nil
  | plain hlive hrest ih =>
    refine .cons ⟨rfl, ?_⟩ (ih owner next path)
    rw [← isLive_iff, isLive, hlive]
    simp
  | follow hlive hinner hrest ihInner ihRest =>
    refine .cons ⟨rfl, ?_⟩ (ihRest owner _ path)
    rw [← isLive_iff, isLive, hlive]
    simp

/-- So does the tree of each table below. -/
theorem Expands.nodes_of_place (h : schema.Expands columns expansion) {owner next : Nat}
    {path : List Column} {part : Placed × Shape}
    (hpart : part ∈ (expansion.shape owner next path).places) :
    ∃ lead, List.Forall₂ (schema.Presents part.1.index lead) part.1.table.visibleColumns
      part.2.nodes := by
  induction h generalizing owner next path with
  | nil => cases hpart
  | plain hlive hrest ih => exact ih hpart
  | @follow source rest table referenced inner others hlive hinner hrest ihInner ihRest =>
    rw [Expansion.shape, Shape.places, List.cons_append, List.mem_cons, List.mem_append] at hpart
    rcases hpart with rfl | hpart | hpart
    · exact ⟨_, hinner.nodes_shape next (next + 1) (path ++ [source])⟩
    · exact ihInner hpart
    · exact ihRest hpart

/-- The relations of the tree and the joins of the foreign keys match one by one. -/
theorem Expands.relations_shape (h : schema.Expands columns expansion) (owner next : Nat)
    (path : List Column) :
    List.Forall₂ HasJoin ((expansion.shape owner next path).relations owner)
      ((expansion.hops owner next).map Hop.join) := by
  induction h generalizing owner next path with
  | nil => exact .nil
  | plain hlive hrest ih => exact ih owner next path
  | @follow source rest table referenced inner others hlive hinner hrest ihInner ihRest =>
    rw [Expansion.hops, List.map_append, List.map_cons]
    obtain ⟨target, hleads, rfl⟩ := liveTarget?_eq_some_iff.1 hlive
    have hown : HasJoin
        (owner, source.mounted (tableAlias owner) (leadOf path), table.placedAt next)
        ⟨tableAlias owner, source.name, tableAlias next, target.column⟩ :=
      ⟨target, hleads.relation, rfl⟩
    have hbelow := ihInner next (next + 1) (path ++ [source])
    exact List.rel_append (.cons hown hbelow) (ihRest owner _ path)

end Schema

/-! ## Faithful exactly where keys are apart -/

namespace Resource

variable {schema : Schema} {root : Table} {resource : Resource} {expansion : Expansion}

/-- Where keys are apart, the shape of a resource is that of its expansion. -/
theorem shape_eq (hmounted : resource.toMounted = expansion.mounted root 0 [])
    (hexpands : schema.Expands root.visibleColumns expansion)
    (hapart : ∀ table ∈ resource.tables, schema.KeysApart table) :
    resource.shape = expansion.shape 0 1 [] := by
  rw [tables_eq hmounted, List.forall_mem_cons, List.forall_mem_map] at hapart
  obtain ⟨hroot, hbelow⟩ := hapart
  have hkeys : expansion.keys.Nodup := by
    rw [hexpands.keys_eq, ← Schema.keysApart_iff_nodup]
    exact Schema.keysApart_placedAt.1 hroot
  have hinner : expansion.Apart :=
    hexpands.apart fun hop hhop => Schema.keysApart_placedAt.1 (hbelow hop hhop)
  rw [shape, hmounted]
  exact Expansion.shape_grown hkeys hinner

theorem faithful_of_shape_eq (hmounted : resource.toMounted = expansion.mounted root 0 [])
    (hexpands : schema.Expands root.visibleColumns expansion)
    (hshape : resource.shape = expansion.shape 0 1 []) : resource.Faithful schema := by
  have hroot : resource.root = root.placedAt 0 := congrArg Mounted.root hmounted
  have hplaces := Expansion.places_shape expansion 0 1 []
  have htables := tables_eq hmounted
  constructor
  · have hbelow := congrArg (List.map Placed.table) hplaces
    rw [List.map_map, List.map_map] at hbelow
    rw [htables, submodels, hroot, hshape, List.map_cons]
    exact congrArg (_ :: ·) hbelow
  · have hbelow := congrArg (List.map Placed.index) hplaces
    rw [List.map_map, List.map_map] at hbelow
    have hindices : (expansion.hops 0 1).map (Placed.index ∘ Hop.placed) =
        List.range' 1 expansion.size := Expansion.indices_hops expansion 0 1
    rw [htables, submodels, hroot, hshape, List.map_cons, List.length_cons, List.length_map,
      Expansion.length_hops, List.range_eq_range', List.range'_succ]
    exact congrArg (0 :: ·) (hbelow.trans hindices)
  · intro part hpart
    rw [submodels, hroot, hshape] at hpart
    rcases List.mem_cons.1 hpart with rfl | hplace
    · exact ⟨_, hexpands.nodes_shape 0 1 []⟩
    · exact hexpands.nodes_of_place hplace
  · rw [joins_eq hmounted, hroot, hshape]
    exact hexpands.relations_shape 0 1 []

/-- **A shape is faithful exactly where keys are apart.** A compiled resource has in its
shape every visible column, every table and every join of its own and nothing else, if
no two entries of one of its tables meet under one key, and only then. -/
theorem faithful_iff (hcompile : compile schema root = .ok resource) :
    resource.Faithful schema ↔ ∀ table ∈ resource.tables, schema.KeysApart table := by
  constructor
  · intro hfaithful table htable
    exact hfaithful.keysApart (keyed hcompile) htable
  · intro hapart
    obtain ⟨expansion, hexpands, hmounted, -⟩ := mounted_of_compile hcompile
    exact faithful_of_shape_eq hmounted hexpands (shape_eq hmounted hexpands hapart)

end Resource

/-- An order loses neither of its two addresses. -/
theorem addresses_kept :
    Resource.compile (addressedShop.toSchema [] []) addressedTable = .ok addressedOrder ∧
      (∀ table ∈ addressedOrder.tables, (addressedShop.toSchema [] []).KeysApart table) ∧
      addressedOrder.Faithful (addressedShop.toSchema [] []) := by
  have hcompile : Resource.compile (addressedShop.toSchema [] []) addressedTable =
      .ok addressedOrder := eq_ok_get _
  have hapart : ∀ table ∈ addressedOrder.tables,
      (addressedShop.toSchema [] []).KeysApart table := by
    decide +kernel
  exact ⟨hcompile, hapart, (Resource.faithful_iff hcompile).2 hapart⟩

/-! ## A branch that is overwritten -/

/-- Orders refer to customers, and say in a column of its own from which branch of the
shop the customer came. -/
def branchedShop : Catalog where
  databases := ["shop"]
  tables := [("shop", "customers"), ("shop", "orders")]
  columns := [
    ⟨"shop", "customers", "id", "int(11)", false, "PRI", false⟩,
    ⟨"shop", "orders", "id", "int(11)", false, "PRI", false⟩,
    ⟨"shop", "orders", "customer_id", "int(11)", false, "MUL", false⟩,
    ⟨"shop", "orders", "customer_id_branch", "varchar(64)", false, "", false⟩]
  links := [⟨⟨"shop", "orders", "customer_id"⟩, ⟨"shop", "customers", "id"⟩⟩]

def branchedTable : Table :=
  ((branchedShop.toSchema [] []).table? "shop.orders").getD default

def branchedOrder : Resource :=
  (Resource.compile (branchedShop.toSchema [] []) branchedTable).toOption.get (by decide +kernel)

/-- No table has two columns of one name, and the resource joins the customers; but its
shape has the orders only. -/
theorem branch_overwritten :
    (∀ table ∈ (branchedShop.toSchema [] []).tables, (table.columns.map Column.name).Nodup) ∧
      Resource.compile (branchedShop.toSchema [] []) branchedTable = .ok branchedOrder ∧
      branchedOrder.joins.map Join.display = ["t1.customer_id = t2.id"] ∧
      branchedOrder.submodels.map (fun part => part.1.table.name) = ["orders"] ∧
      ¬ branchedOrder.Faithful (branchedShop.toSchema [] []) := by
  refine ⟨by decide +kernel, eq_ok_get _, by decide +kernel, by decide +kernel, ?_⟩
  intro hfaithful
  have hindices := hfaithful.indices
  revert hindices
  decide +kernel

end TableApi
