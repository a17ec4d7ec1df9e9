import TableApi.Proofs.Mounting

/-!
# The expansion of a table

Following foreign keys from a table opens a tree: its columns in their order, and
under each column whose relation is live the columns of the table that it leads to.
`Expansion` is this tree as the schema has it, before anything is numbered or named,
and `Schema.Expands` says which tree belongs to which columns.

Mounting adds nothing to it. Whatever it writes down, tables, joins, required names
and entries, is a function of the expansion (`Expansion.grown`), and
`Schema.mounted_eq` says so of every mount that succeeds. What is proved of a
mounted table is proved of its expansion, by one induction over the tree and without
a look at how the walk is cut short.
-/

namespace TableApi

/-- The columns of a table, and under each foreign key that is followed the columns
of the table that it leads to. -/
inductive Expansion where
  | nil
  | plain (source : Column) (rest : Expansion)
  /-- A column that references the column `referenced` of `table`, of which `inner`
  is the expansion. -/
  | follow (source : Column) (table : Table) (referenced : String) (inner rest : Expansion)

/-- A foreign key that is followed: the number of its table and the column, and the
number, the table and the column that it leads to. -/
structure Hop where
  owner : Nat
  source : Column
  index : Nat
  table : Table
  referenced : String

/-- What stands in front of the display names of a table that foreign keys lead to. -/
def leadOf (path : List Column) : String :=
  String.join (path.map fun source => source.displayName.primary ++ "_")

def Table.placedAt (table : Table) (index : Nat) : Placed :=
  ⟨index, { table with storageAlias := some (tableAlias index) }⟩

namespace Hop

def join (hop : Hop) : Join :=
  ⟨tableAlias hop.owner, hop.source.name, tableAlias hop.index, hop.referenced⟩

/-- The table that is mounted behind the foreign key. -/
def placed (hop : Hop) : Placed :=
  hop.table.placedAt hop.index

end Hop

namespace Expansion

/-- How many foreign keys are followed. -/
def size : Expansion → Nat
  | nil => 0
  | plain _ rest => rest.size
  | follow _ _ _ inner rest => inner.size + 1 + rest.size

/-- The foreign keys that are followed, in the order of a depth-first walk, from the
table of number `owner`. The tables they lead to are numbered from `next`. -/
def hops (owner next : Nat) : Expansion → List Hop
  | nil => []
  | plain _ rest => rest.hops owner next
  | follow source table referenced inner rest =>
    ⟨owner, source, next, table, referenced⟩ :: inner.hops next (next + 1) ++
      rest.hops owner (next + 1 + inner.size)

/-- The tree of mounted columns. `path` holds the foreign keys that lead here. -/
def shape (owner next : Nat) (path : List Column) : Expansion → Shape
  | nil => .nil
  | plain source rest =>
    .leaf (source.mounted (tableAlias owner) (leadOf path)) (rest.shape owner next path)
  | follow source table _ inner rest =>
    .branch (source.mounted (tableAlias owner) (leadOf path)) (table.placedAt next)
      (inner.shape next (next + 1) (path ++ [source]))
      (rest.shape owner (next + 1 + inner.size) path)

/-- What mounting columns with this expansion writes down. -/
def grown (owner next : Nat) (path : List Column) : Expansion → Grown
  | nil => {}
  | plain source rest =>
    let column := source.mounted (tableAlias owner) (leadOf path)
    let others := rest.grown owner next path
    { others with
      required :=
        if column.isPrimary then others.required
        else column.displayName.primary :: others.required
      entries := (column.qualifiedName, .column column) :: others.entries }
  | follow source table referenced inner rest =>
    let column := source.mounted (tableAlias owner) (leadOf path)
    let child := inner.grown next (next + 1) (path ++ [source])
    let others := rest.grown owner (next + 1 + inner.size) path
    { below := (table.placedAt next).table :: child.below ++ others.below
      joins := ⟨tableAlias owner, source.name, tableAlias next, referenced⟩ ::
        child.joins ++ others.joins
      required := others.required
      requiredBelow := (child.required :: child.requiredBelow) ++ others.requiredBelow
      entries := (column.qualifiedName, .column column) ::
        (column.branchKey, .branch (table.placedAt next) (Entries.ofList child.entries)) ::
          others.entries }

/-- A table with this expansion, mounted at an index. -/
def mounted (table : Table) (index : Nat) (path : List Column) (expansion : Expansion) :
    Mounted :=
  let grown := expansion.grown index (index + 1) path
  { root := table.placedAt index
    below := grown.below
    joins := grown.joins
    required := grown.required :: grown.requiredBelow
    entries := Entries.ofList grown.entries }

/-! ## What an expansion lists -/

variable (expansion : Expansion) (owner next : Nat) (path : List Column)

@[simp] theorem length_hops : (expansion.hops owner next).length = expansion.size := by
  induction expansion generalizing owner next with
  | nil => rfl
  | plain source rest ih => exact ih owner next
  | follow source table referenced inner rest ihInner ihRest =>
    simp only [hops, size, List.length_append, List.length_cons, ihInner, ihRest]

/-- The tables are numbered one after another. -/
theorem indices_hops :
    (expansion.hops owner next).map Hop.index = List.range' next expansion.size := by
  induction expansion generalizing owner next with
  | nil => rfl
  | plain source rest ih => exact ih owner next
  | follow source table referenced inner rest ihInner ihRest =>
    have hnext : next + 1 + inner.size = next + (inner.size + 1) := by omega
    rw [hops, List.map_append, List.map_cons, ihInner, ihRest, size, hnext,
      ← List.range'_append_1, List.range'_succ]

theorem index_of_getElem?_hops {expansion : Expansion} {owner next k : Nat} {hop : Hop}
    (h : (expansion.hops owner next)[k]? = some hop) : hop.index = next + k := by
  have hindices := congrArg (·[k]?) (indices_hops expansion owner next)
  simp only [List.getElem?_map, h, Option.map_some] at hindices
  have hk := (List.getElem?_eq_some_iff.1 hindices.symm).1
  rw [List.length_range'] at hk
  rw [List.getElem?_range' hk] at hindices
  simpa using hindices

/-- The numbers of the tables below lie in one interval. -/
theorem index_of_mem_hops {hop : Hop} (h : hop ∈ expansion.hops owner next) :
    next ≤ hop.index ∧ hop.index < next + expansion.size := by
  have hmem : hop.index ∈ (expansion.hops owner next).map Hop.index := List.mem_map_of_mem h
  rw [indices_hops, List.mem_range'_1] at hmem
  exact hmem

/-- A foreign key belongs to a table that is numbered before the one it leads to. -/
theorem owner_lt_index (hearlier : owner < next) {hop : Hop}
    (h : hop ∈ expansion.hops owner next) : hop.owner < hop.index := by
  induction expansion generalizing owner next with
  | nil => cases h
  | plain source rest ih => exact ih owner next hearlier h
  | follow source table referenced inner rest ihInner ihRest =>
    rw [hops, List.cons_append, List.mem_cons, List.mem_append] at h
    rcases h with rfl | h | h
    · exact hearlier
    · exact ihInner next (next + 1) (Nat.lt_succ_self next) h
    · exact ihRest owner (next + 1 + inner.size) (by omega) h

theorem below_grown :
    (expansion.grown owner next path).below =
      (expansion.hops owner next).map fun hop => hop.placed.table := by
  induction expansion generalizing owner next path with
  | nil => rfl
  | plain source rest ih => exact ih owner next path
  | follow source table referenced inner rest ihInner ihRest =>
    simp only [grown, hops, List.map_append, List.map_cons, ihInner, ihRest]
    rfl

theorem length_below (table : Table) (index : Nat) :
    (expansion.mounted table index path).below.length = expansion.size := by
  show (expansion.grown index (index + 1) path).below.length = _
  rw [below_grown, List.length_map, length_hops]

theorem joins_grown :
    (expansion.grown owner next path).joins = (expansion.hops owner next).map Hop.join := by
  induction expansion generalizing owner next path with
  | nil => rfl
  | plain source rest ih => exact ih owner next path
  | follow source table referenced inner rest ihInner ihRest =>
    simp only [grown, hops, List.map_append, List.map_cons, ihInner, ihRest]
    rfl

end Expansion

theorem leadOf_append (path : List Column) (source : Column) :
    leadOf (path ++ [source]) = leadOf path ++ source.displayName.primary ++ "_" := by
  simp [leadOf, String.join_append, String.append_assoc]

/-! ## The expansion of columns -/

/-- A column references a column of a table, and nothing on the way is excluded: not
the referenced column, not its table, and not the table's database. -/
structure Schema.LeadsTo (schema : Schema) (source : Column) (target : ColumnRef)
    (table : Table) : Prop where
  relation : source.relation = some target
  found : schema.table? target.tablePath = some table
  columnOpen : ∃ referenced, table.column? target.column = some referenced ∧
    referenced.policy.excluded = false
  tableOpen : table.policy.excluded = false
  databaseOpen : ∀ database, schema.database? table.database = some database →
    database.policy.excluded = false

/-- The expansion of columns: a column is followed when its relation is live. -/
inductive Schema.Expands (schema : Schema) : List Column → Expansion → Prop
  | nil : Expands schema [] .nil
  | plain {source rest others} (hlive : schema.liveTarget? source = .ok none)
      (hrest : Expands schema rest others) : Expands schema (source :: rest) (.plain source others)
  | follow {source rest table referenced inner others}
      (hlive : schema.liveTarget? source = .ok (some (table, referenced)))
      (hinner : Expands schema table.visibleColumns inner)
      (hrest : Expands schema rest others) :
      Expands schema (source :: rest) (.follow source table referenced inner others)

namespace Schema

variable {schema : Schema}

/-- A relation is live exactly when nothing on its way is excluded. -/
theorem liveTarget?_eq_some_iff {source : Column} {table : Table} {referenced : String} :
    schema.liveTarget? source = .ok (some (table, referenced)) ↔
      ∃ target, schema.LeadsTo source target table ∧ target.column = referenced := by
  unfold liveTarget?
  constructor
  · intro h
    split at h
    · cases h
    · next target hrelation =>
      split at h
      · cases h
      · next found hfound =>
        split at h
        · cases h
        · next column hcolumn =>
          simp only [Except.ok.injEq, Option.ite_none_left_eq_some, Bool.or_eq_true,
            Option.any_eq_true, not_or, not_exists, not_and, Bool.not_eq_true, Option.some.injEq,
            Prod.mk.injEq] at h
          obtain ⟨⟨⟨hdatabase, htable⟩, hopen⟩, rfl, rfl⟩ := h
          exact ⟨target, ⟨hrelation, hfound, ⟨column, hcolumn, hopen⟩, htable, hdatabase⟩, rfl⟩
  · rintro ⟨target, ⟨hrelation, hfound, ⟨column, hcolumn, hopen⟩, htable, hdatabase⟩, rfl⟩
    have hshut : (schema.database? table.database).any (fun d => d.policy.excluded) = false := by
      rw [Option.any_eq_false]
      intro database h
      simpa using hdatabase database h
    simp only [hrelation, hfound, hcolumn, hshut, htable, hopen, Bool.or_self, Bool.false_eq_true,
      if_false]

/-- Every foreign key that is followed is a visible column of the table at hand or of a
table that another key leads to, and its relation is live. -/
theorem Expands.mem_hops {columns : List Column} {expansion : Expansion}
    (h : schema.Expands columns expansion) {table : Table}
    (hcolumns : columns ⊆ table.visibleColumns)
    {owner next : Nat} {hop : Hop} (hhop : hop ∈ expansion.hops owner next) :
    schema.liveTarget? hop.source = .ok (some (hop.table, hop.referenced)) ∧
      ∃ found, (hop.owner, found) ∈
          (owner, table) ::
            (expansion.hops owner next).map (fun other => (other.index, other.table)) ∧
        hop.source ∈ found.visibleColumns := by
  induction h generalizing table owner next with
  | nil => cases hhop
  | plain hlive hrest ih =>
    exact ih (List.subset_of_cons_subset hcolumns) hhop
  | @follow source rest target referenced inner others hlive hinner hrest ihInner ihRest =>
    rw [Expansion.hops, List.cons_append, List.mem_cons, List.mem_append] at hhop
    rw [Expansion.hops, List.cons_append, List.map_cons, List.map_append]
    rcases hhop with rfl | hhop | hhop
    · exact ⟨hlive, table, List.mem_cons_self, hcolumns List.mem_cons_self⟩
    · obtain ⟨hhopLive, found, hfound, hsource⟩ := ihInner (List.Subset.refl _) hhop
      refine ⟨hhopLive, found, List.mem_cons_of_mem _ ?_, hsource⟩
      exact List.mem_append_left _ hfound
    · obtain ⟨hhopLive, found, hfound, hsource⟩ :=
        ihRest (List.subset_of_cons_subset hcolumns) hhop
      refine ⟨hhopLive, found, ?_, hsource⟩
      rcases List.mem_cons.1 hfound with heq | hfound
      · rw [heq]
        exact List.mem_cons_self
      · exact List.mem_cons_of_mem _ (List.mem_cons_of_mem _ (List.mem_append_right _ hfound))

/-- Mounting columns writes down what their expansion lists, if mounting a table
below does. -/
theorem grown_eq {mountBelow : Nat → String → Table → Except SchemaFault Mounted}
    (hbelow : ∀ {next path table child}, mountBelow next (leadOf path) table = .ok child →
      ∃ inner, schema.Expands table.visibleColumns inner ∧ child = inner.mounted table next path ∧
        next + inner.size < maxTables)
    {owner next : Nat} {path : List Column} {columns : List Column} {grown : Grown}
    (h : schema.mountColumns mountBelow (tableAlias owner) (leadOf path) next columns = .ok grown)
    (hnext : next ≤ maxTables) :
    ∃ expansion, schema.Expands columns expansion ∧ grown = expansion.grown owner next path ∧
      next + expansion.size ≤ maxTables := by
  induction columns generalizing next grown with
  | nil =>
    cases h
    exact ⟨.nil, .nil, rfl, hnext⟩
  | cons source rest ih =>
    rcases mountColumns_cons h with ⟨hlive, others, hothers, rfl⟩ |
      ⟨table, referenced, child, others, hlive, hchild, hothers, rfl⟩
    · obtain ⟨expansion, hexpands, rfl, hfew⟩ := ih hothers hnext
      exact ⟨.plain source expansion, .plain hlive hexpands, rfl, hfew⟩
    · have hlead : (source.mounted (tableAlias owner) (leadOf path)).displayName.primary ++ "_" =
          leadOf (path ++ [source]) := (leadOf_append path source).symm
      rw [hlead] at hchild
      obtain ⟨inner, hinner, rfl, hfewInner⟩ := hbelow hchild
      rw [Expansion.length_below] at hothers
      obtain ⟨expansion, hexpands, rfl, hfew⟩ := ih hothers (by omega)
      refine ⟨.follow source table referenced inner expansion, .follow hlive hinner hexpands,
        rfl, ?_⟩
      rw [Expansion.size]
      omega

/-- **Mounting is expanding.** A table that can be mounted has an expansion, and what
mounting writes down is what the expansion lists. -/
theorem mounted_eq {hops : Nat} {inside : List String} {index : Nat} {path : List Column}
    {table : Table} {mounted : Mounted}
    (h : schema.mountTable hops inside index (leadOf path) table = .ok mounted) :
    ∃ expansion, schema.Expands table.visibleColumns expansion ∧
      mounted = expansion.mounted table index path ∧ index + expansion.size < maxTables := by
  -- The induction is on the hops: each table below is a mount with one less.
  induction hops generalizing inside index path table mounted with
  | zero =>
    obtain ⟨-, -, hops', grown, hhops, -⟩ := mountTable_ok h
    omega
  | succ hops ih =>
    obtain ⟨-, hindex, hops', grown, hhops, hgrown, rfl⟩ := mountTable_ok h
    obtain rfl : hops = hops' := by omega
    obtain ⟨expansion, hexpands, rfl, hfew⟩ := grown_eq (fun hchild => ih hchild) hgrown hindex
    exact ⟨expansion, hexpands, rfl, by omega⟩

end Schema

namespace Resource

variable {schema : Schema} {root : Table} {resource : Resource}

/-- A compiled resource is what the expansion of its root lists. -/
theorem mounted_of_compile (h : compile schema root = .ok resource) :
    ∃ expansion, schema.Expands root.visibleColumns expansion ∧
      resource.toMounted = expansion.mounted root 0 [] ∧ expansion.size < maxTables := by
  have hmount : schema.mountTable (maxHops + 1) [] 0 (leadOf []) root = .ok resource.toMounted :=
    mountTable_of_compile h
  obtain ⟨expansion, hexpands, hmounted, hfew⟩ := Schema.mounted_eq hmount
  exact ⟨expansion, hexpands, hmounted, by omega⟩

end Resource

end TableApi
