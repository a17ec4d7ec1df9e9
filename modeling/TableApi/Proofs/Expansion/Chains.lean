import TableApi.Proofs.Expansion
import TableApi.Proofs.Introspection

/-!
# Chains of relations

A chain follows live relations from a table, one after another: `Schema.ChainFrom` says
which lists of steps are chains, without a word about mounting. The schema may be cyclic,
so a table may have chains of any length.

An expansion is a finite tree, and its branches are the chains of its table: each of them
once, and none besides (`Schema.Expands.mem_chains`, `Schema.Expands.nodup_chains`). The
hops of the expansion are these chains in the order of the walk (`Expansion.tables_hops`).
So a table that has an expansion has as many chains as the expansion has hops, and one
more, since the chain without a step stays at the table itself.
-/

namespace TableApi

/-- Relations that are followed one after another: each column with the table that it
leads to. -/
abbrev Chain := List (Column × Table)

/-- The tables that a chain is in, the one that it starts from first. -/
def visited (table : Table) (chain : Chain) : List Table :=
  table :: chain.map Prod.snd

/-- The table that a chain ends in. -/
def destination : Table → Chain → Table
  | table, [] => table
  | _, (_, target) :: rest => destination target rest

/-- A chain of live relations from a table: each step follows a visible column of the table
that the chain is in. -/
inductive Schema.ChainFrom (schema : Schema) : Table → Chain → Prop
  | stay (table) : ChainFrom schema table []
  | follow {table source ref target rest} (hsource : source ∈ table.visibleColumns)
      (hleads : schema.LeadsTo source ref target) (hrest : ChainFrom schema target rest) :
      ChainFrom schema table ((source, target) :: rest)

/-- A chain whose first step follows one of some columns. -/
def Schema.ChainVia (schema : Schema) (columns : List Column) (chain : Chain) : Prop :=
  ∃ source ∈ columns, ∃ ref target rest, schema.LeadsTo source ref target ∧
    schema.ChainFrom target rest ∧ chain = (source, target) :: rest

namespace Schema

variable {schema : Schema} {table : Table} {chain : Chain}

/-- A chain stays at its table or follows one of the table's visible columns. -/
theorem chainFrom_iff :
    schema.ChainFrom table chain ↔ chain = [] ∨ schema.ChainVia table.visibleColumns chain := by
  constructor
  · rintro (_ | ⟨hsource, hleads, hrest⟩)
    · exact .inl rfl
    · exact .inr ⟨_, hsource, _, _, _, hleads, hrest, rfl⟩
  · rintro (rfl | ⟨source, hsource, ref, target, rest, hleads, hrest, rfl⟩)
    · exact .stay table
    · exact .follow hsource hleads hrest

theorem chainVia_cons {source : Column} {columns : List Column} :
    schema.ChainVia (source :: columns) chain ↔
      schema.ChainVia [source] chain ∨ schema.ChainVia columns chain := by
  simp only [ChainVia, List.exists_mem_cons_iff, List.not_mem_nil, false_and, exists_false,
    or_false]

/-- A column has the chains that its live relation begins. -/
theorem chainVia_live {source : Column} {ref : ColumnRef} {target : Table}
    (hleads : schema.LeadsTo source ref target) :
    schema.ChainVia [source] chain ↔
      ∃ rest, schema.ChainFrom target rest ∧ chain = (source, target) :: rest := by
  constructor
  · rintro ⟨other, hother, ref', found, rest, hleads', hrest, rfl⟩
    obtain rfl := List.mem_singleton.1 hother
    have hsame : ref = ref' := Option.some.inj (hleads.relation.symm.trans hleads'.relation)
    subst hsame
    obtain rfl : target = found := Option.some.inj (hleads.found.symm.trans hleads'.found)
    exact ⟨rest, hrest, rfl⟩
  · rintro ⟨rest, hrest, rfl⟩
    exact ⟨source, List.mem_singleton_self source, ref, target, rest, hleads, hrest, rfl⟩

/-- A column whose relation is not live begins no chain. -/
theorem not_chainVia_plain {source : Column} (hlive : schema.liveTarget? source = .ok none) :
    ¬ schema.ChainVia [source] chain := by
  rintro ⟨other, hother, ref, target, rest, hleads, -, -⟩
  obtain rfl := List.mem_singleton.1 hother
  rw [liveTarget?_eq_some_iff.2 ⟨ref, hleads, rfl⟩] at hlive
  cases hlive

end Schema

/-! ## The chains of an expansion -/

namespace Expansion

/-- The chains of an expansion that follow a relation, in the order of a depth-first
walk. -/
def chains : Expansion → List Chain
  | nil => []
  | plain _ rest => rest.chains
  | follow source table _ inner rest =>
    ([] :: inner.chains).map ((source, table) :: ·) ++ rest.chains

@[simp] theorem length_chains (expansion : Expansion) :
    expansion.chains.length = expansion.size := by
  induction expansion with
  | nil => rfl
  | plain source rest ih => exact ih
  | follow source table referenced inner rest ihInner ihRest =>
    simp only [chains, size, List.length_append, List.length_map, List.length_cons, ihInner,
      ihRest]

/-- The tables that an expansion lists are those in which its chains end. -/
theorem tables_hops (expansion : Expansion) (owner next : Nat) (table : Table) :
    (expansion.hops owner next).map Hop.table = expansion.chains.map (destination table) := by
  induction expansion generalizing owner next table with
  | nil => rfl
  | plain source rest ih => exact ih owner next table
  | follow source target referenced inner rest ihInner ihRest =>
    simp only [hops, chains, List.map_append, List.map_cons, List.map_map, ihRest owner _ table]
    rw [ihInner next (next + 1) target]
    rfl

end Expansion

namespace Schema.Expands

variable {schema : Schema} {columns : List Column} {expansion : Expansion}

/-- The branches of an expansion are the chains that its columns begin. -/
theorem mem_chains (h : schema.Expands columns expansion) {chain : Chain} :
    chain ∈ expansion.chains ↔ schema.ChainVia columns chain := by
  induction h generalizing chain with
  | nil => simp [Expansion.chains, ChainVia]
  | plain hlive hrest ih =>
    rw [chainVia_cons, Expansion.chains, ih]
    simp only [not_chainVia_plain hlive, false_or]
  | @follow source rest table referenced inner others hlive hinner hrest ihInner ihRest =>
    obtain ⟨ref, hleads, -⟩ := liveTarget?_eq_some_iff.1 hlive
    rw [chainVia_cons, chainVia_live hleads, Expansion.chains, List.mem_append, ihRest,
      List.mem_map]
    have hinner : ∀ below, below ∈ [] :: inner.chains ↔ schema.ChainFrom table below := by
      intro below
      rw [List.mem_cons, ihInner, chainFrom_iff]
    simp only [hinner, eq_comm]

/-- The chains of a table are the chain that stays there and the branches of its
expansion. -/
theorem mem_chains_table {table : Table} (h : schema.Expands table.visibleColumns expansion)
    {chain : Chain} : chain ∈ [] :: expansion.chains ↔ schema.ChainFrom table chain := by
  rw [List.mem_cons, h.mem_chains, chainFrom_iff]

theorem nil_notMem_chains (h : schema.Expands columns expansion) : [] ∉ expansion.chains := by
  rw [h.mem_chains]
  rintro ⟨source, -, ref, target, rest, -, -, heq⟩
  cases heq

/-- An expansion has each chain once, as long as no table has a column twice. -/
theorem nodup_chains (h : schema.Expands columns expansion) (hcolumns : columns.Nodup)
    (hnodup : ∀ table ∈ schema.tables, table.visibleColumns.Nodup) : expansion.chains.Nodup := by
  induction h with
  | nil => exact List.nodup_nil
  | plain hlive hrest ih => exact ih (List.nodup_cons.1 hcolumns).2
  | @follow source rest table referenced inner others hlive hinner hrest ihInner ihRest =>
    obtain ⟨hsource, hrestColumns⟩ := List.nodup_cons.1 hcolumns
    obtain ⟨path, hfound⟩ := table?_of_liveTarget? hlive
    have hbelow : ([] :: inner.chains).Nodup :=
      List.nodup_cons.2 ⟨hinner.nil_notMem_chains,
        ihInner (hnodup table (mem_tables_of_table? hfound))⟩
    rw [Expansion.chains]
    refine List.Nodup.append (hbelow.map fun _ _ heq => (List.cons.inj heq).2)
      (ihRest hrestColumns) ?_
    -- A chain of the first column is none of a later one, which is another column.
    intro chain hfirst hlater
    obtain ⟨below, -, rfl⟩ := List.mem_map.1 hfirst
    obtain ⟨other, hother, _, _, _, -, -, heq⟩ := hrest.mem_chains.1 hlater
    cases heq
    exact hsource hother

end Schema.Expands

end TableApi
