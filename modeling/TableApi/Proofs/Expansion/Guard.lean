import Mathlib.Data.List.Perm.Subperm
import TableApi.Proofs.Expansion.Chains
import TableApi.Proofs.Validation

/-!
# When a table cannot be expanded

A schema may be cyclic, so its relations are followed under three limits: the walk enters
no table that it is inside of, follows at most sixteen relations, and joins at most
sixty-one tables. The limits are checked one table at a time, against the names that the
walk is inside of, the hops that are left and the number of the next table.

`Resource.expands_within_limits` says what these checks come to. A table of a valid schema
is refused exactly when some chain of its relations visits a table twice
(`Schema.Revisits`), some chain is too long (`Schema.TooDeep`), or there are too many
chains (`Schema.TooWide`). Nothing of the walk is left in these: not its order, and not
where it stood when it was refused. That two chains end in one table is no reason by
itself.
-/

namespace TableApi

/-! ## Why the walk is refused -/

/-- The last of some names is already among those before it. -/
def EndsInRepeat (names : List String) : Prop :=
  ∃ before last, names = before ++ [last] ∧ last ∈ before

def Chain.names (chain : Chain) : List String :=
  chain.map fun step => step.2.qualifiedName

/-- The reason for a fault, in chains that are allowed from where the walk stands: it is
inside of the tables of some names, has hops left, and numbers the next table. -/
inductive LimitHit (allowed : Chain → Prop) (hops : Nat) (inside : List String) (next : Nat) :
    SchemaFault → Prop
  | cyclic {chain} (hchain : allowed chain) (hrepeat : EndsInRepeat (inside ++ chain.names)) :
      LimitHit allowed hops inside next (.cyclic (" -> ".intercalate (inside ++ chain.names)))
  | deep {chain} (hchain : allowed chain) (hlong : chain.length = hops) :
      LimitHit allowed hops inside next (.depthExceeded maxHops)
  | wide {chains : List Chain} (hnodup : chains.Nodup) (hchains : ∀ chain ∈ chains, allowed chain)
      (hmany : maxTables < next + chains.length) :
      LimitHit allowed hops inside next (.tooManyTables maxTables)

namespace LimitHit

variable {schema : Schema} {allowed more : Chain → Prop} {hops next : Nat} {inside : List String}
  {fault : SchemaFault}

theorem mono (h : LimitHit allowed hops inside next fault)
    (hmore : ∀ chain, allowed chain → more chain) : LimitHit more hops inside next fault := by
  cases h with
  | cyclic hchain hrepeat => exact .cyclic (hmore _ hchain) hrepeat
  | deep hchain hlong => exact .deep (hmore _ hchain) hlong
  | wide hnodup hchains hmany => exact .wide hnodup (fun chain h => hmore _ (hchains chain h)) hmany

/-- What is refused in a table is refused one step before it. -/
theorem before {source : Column} {ref : ColumnRef} {target : Table}
    (hleads : schema.LeadsTo source ref target)
    (h : LimitHit (schema.ChainFrom target) hops (inside ++ [target.qualifiedName]) next fault) :
    LimitHit (schema.ChainVia [source]) (hops + 1) inside next fault := by
  have hstep : ∀ {chain}, schema.ChainFrom target chain →
      schema.ChainVia [source] ((source, target) :: chain) :=
    fun hchain => (Schema.chainVia_live hleads).2 ⟨_, hchain, rfl⟩
  cases h with
  | @cyclic chain hchain hrepeat =>
    have hnames : inside ++ [target.qualifiedName] ++ chain.names =
        inside ++ Chain.names ((source, target) :: chain) := by
      rw [List.append_assoc]
      rfl
    rw [hnames] at hrepeat ⊢
    exact .cyclic (hstep hchain) hrepeat
  | deep hchain hlong => exact .deep (hstep hchain) (congrArg (· + 1) hlong)
  | wide hnodup hchains hmany =>
    refine .wide (hnodup.map (List.cons_injective (a := (source, target)))) (fun chain hmem => ?_)
      (by rwa [List.length_map])
    obtain ⟨below, hbelow, rfl⟩ := List.mem_map.1 hmem
    exact hstep (hchains below hbelow)

/-- Chains that were gone before add to those for which there is no more room. -/
theorem after {earlier : List Chain}
    (h : LimitHit allowed hops inside (next + earlier.length) fault) (hnodup : earlier.Nodup)
    (hearlier : ∀ chain ∈ earlier, more chain) (hmore : ∀ chain, allowed chain → more chain)
    (hapart : ∀ chain ∈ earlier, ¬ allowed chain) : LimitHit more hops inside next fault := by
  cases h with
  | cyclic hchain hrepeat => exact .cyclic (hmore _ hchain) hrepeat
  | deep hchain hlong => exact .deep (hmore _ hchain) hlong
  | wide hothers hchains hmany =>
    refine .wide (hnodup.append hothers fun chain hfirst hlater => ?_) (fun chain hmem => ?_) ?_
    · exact hapart chain hfirst (hchains chain hlater)
    · rcases List.mem_append.1 hmem with hmem | hmem
      · exact hearlier chain hmem
      · exact hmore chain (hchains chain hmem)
    · rw [List.length_append]
      omega

end LimitHit

namespace Schema

variable {schema : Schema}

/-- The relations of a schema resolve, and no table has a column twice. -/
structure Expandable (schema : Schema) : Prop where
  resolves : ∀ table ∈ schema.tables, ∀ column ∈ table.visibleColumns, ∀ fault,
    schema.liveTarget? column ≠ .error fault
  columns : ∀ table ∈ schema.tables, table.visibleColumns.Nodup

/-- Mounting columns is refused for a reason in the chains that they begin, if mounting a
table below is. -/
theorem limitHit_of_mountColumns {mountBelow : Nat → String → Table → Except SchemaFault Mounted}
    {hops : Nat} {inside : List String} (hexpandable : schema.Expandable)
    (hrefused : ∀ {next lead target fault}, target ∈ schema.tables →
      mountBelow next (leadOf lead) target = .error fault →
      LimitHit (schema.ChainFrom target) hops (inside ++ [target.qualifiedName]) next fault)
    (hmounted : ∀ {next lead target child}, mountBelow next (leadOf lead) target = .ok child →
      ∃ inner, schema.Expands target.visibleColumns inner ∧ child.below.length = inner.size)
    {owner next : Nat} {lead columns : List Column} {fault : SchemaFault}
    (hresolves : ∀ column ∈ columns, ∀ fault, schema.liveTarget? column ≠ .error fault)
    (hnodup : columns.Nodup)
    (h : schema.mountColumns mountBelow (tableAlias owner) (leadOf lead) next columns =
      .error fault) :
    LimitHit (schema.ChainVia columns) (hops + 1) inside next fault := by
  induction columns generalizing next with
  | nil => cases h
  | cons source rest ih =>
    obtain ⟨hsource, hnodup⟩ := List.nodup_cons.1 hnodup
    have hlead : (source.mounted (tableAlias owner) (leadOf lead)).displayName.primary ++ "_" =
        leadOf (lead ++ [source]) := (leadOf_append lead source).symm
    have hrest : ∀ chain, schema.ChainVia rest chain → schema.ChainVia (source :: rest) chain :=
      fun chain hchain => chainVia_cons.2 (.inr hchain)
    rcases mountColumns_cons_error h with htarget | ⟨target, referenced, hlive, hbelow⟩ |
      ⟨later, hlater, ⟨-, rfl⟩ | ⟨target, referenced, child, hlive, hchild, rfl⟩⟩
    · exact absurd htarget (hresolves source List.mem_cons_self fault)
    · have hlive : schema.liveTarget? source = .ok (some (target, referenced)) := hlive
      obtain ⟨ref, hleads, -⟩ := liveTarget?_eq_some_iff.1 hlive
      rw [hlead] at hbelow
      exact ((hrefused (mem_tables_of_table? hleads.found) hbelow).before hleads).mono
        fun chain hchain => chainVia_cons.2 (.inl hchain)
    · exact (ih (fun column hcolumn => hresolves column (List.mem_cons_of_mem _ hcolumn)) hnodup
        hlater).mono hrest
    · -- The chains behind the first column are as many as the tables that it has mounted.
      rw [hlead] at hchild
      obtain ⟨inner, hinner, hsize⟩ := hmounted hchild
      have hfirst : schema.Expands [source] (.follow source target referenced inner .nil) :=
        .follow hlive hinner .nil
      have hcount : next + 1 + child.below.length =
          next + (Expansion.follow source target referenced inner .nil).chains.length := by
        rw [Expansion.length_chains, Expansion.size, Expansion.size, hsize]
        omega
      rw [hcount] at hlater
      refine (ih (fun column hcolumn => hresolves column (List.mem_cons_of_mem _ hcolumn)) hnodup
        hlater).after (hfirst.nodup_chains (List.nodup_singleton source) hexpandable.columns)
        (fun chain hchain => chainVia_cons.2 (.inl (hfirst.mem_chains.1 hchain))) hrest ?_
      rintro chain hchain ⟨other, hother, _, _, _, -, -, rfl⟩
      obtain ⟨same, hsame, _, _, _, -, -, heq⟩ := hfirst.mem_chains.1 hchain
      cases heq
      exact hsource (List.mem_singleton.1 hsame ▸ hother)

/-- A mounted table has an expansion, with one hop for each table below. -/
theorem expands_of_mountTable {hops : Nat} {inside : List String} {index : Nat}
    {lead : List Column} {table : Table} {mounted : Mounted}
    (h : schema.mountTable hops inside index (leadOf lead) table = .ok mounted) :
    ∃ inner, schema.Expands table.visibleColumns inner ∧ mounted.below.length = inner.size := by
  obtain ⟨inner, hinner, rfl, -⟩ := mounted_eq h
  exact ⟨inner, hinner, inner.length_below lead table index⟩

/-- Mounting a table is refused for a reason in its chains. -/
theorem limitHit_of_mountTable (hexpandable : schema.Expandable) {hops : Nat}
    {inside : List String} {index : Nat} {lead : List Column} {table : Table}
    (htable : table ∈ schema.tables) {fault : SchemaFault}
    (h : schema.mountTable hops inside index (leadOf lead) table = .error fault) :
    LimitHit (schema.ChainFrom table) hops (inside ++ [table.qualifiedName]) index fault := by
  -- The induction is on the hops: each table below is a mount with one less.
  induction hops using Nat.strongRecOn generalizing inside index lead table fault with
  | _ hops ih =>
    rcases mountTable_error h with ⟨hinside, rfl⟩ | ⟨rfl, rfl⟩ | ⟨hmany, rfl⟩ |
      ⟨below, rfl, hcolumns⟩
    · have hnames : inside ++ [table.qualifiedName] =
          inside ++ [table.qualifiedName] ++ Chain.names [] := (List.append_nil _).symm
      have hrepeat : EndsInRepeat (inside ++ [table.qualifiedName] ++ Chain.names []) :=
        ⟨inside, table.qualifiedName, hnames.symm, hinside⟩
      have hhit : LimitHit (schema.ChainFrom table) hops (inside ++ [table.qualifiedName]) index
          (.cyclic (" -> ".intercalate (inside ++ [table.qualifiedName] ++ Chain.names []))) :=
        .cyclic (.stay table) hrepeat
      rwa [← hnames] at hhit
    · exact .deep (.stay table) rfl
    · refine .wide (List.nodup_singleton []) (fun chain hchain => ?_) (Nat.lt_succ_of_le hmany)
      rw [List.mem_singleton.1 hchain]
      exact .stay table
    · have hbelow := limitHit_of_mountColumns hexpandable
        (fun htarget h => ih below (Nat.lt_succ_self below) htarget h) expands_of_mountTable
        (hexpandable.resolves table htable) (hexpandable.columns table htable) hcolumns
      -- The number of this table goes to the chain that stays here.
      have hstay : ∀ chain ∈ [([] : Chain)], schema.ChainFrom table chain ∧
          ¬ schema.ChainVia table.visibleColumns chain := by
        intro chain hchain
        obtain rfl := List.mem_singleton.1 hchain
        refine ⟨.stay table, ?_⟩
        rintro ⟨_, _, _, _, _, _, _, heq⟩
        cases heq
      exact LimitHit.after hbelow (List.nodup_singleton []) (fun chain h => (hstay chain h).1)
        (fun chain hchain => chainFrom_iff.2 (.inr hchain)) fun chain h => (hstay chain h).2

/-- From a mounted table no chain is too long and none comes back to a table. -/
theorem within_of_mountTable {hops : Nat} {inside : List String} {index : Nat} {lead : String}
    {table : Table} {mounted : Mounted}
    (h : schema.mountTable hops inside index lead table = .ok mounted) (hinside : inside.Nodup)
    {chain : Chain} (hchain : schema.ChainFrom table chain) :
    chain.length < hops ∧ (inside ++ (visited table chain).map Table.qualifiedName).Nodup := by
  induction hchain generalizing hops inside index lead mounted with
  | stay table =>
    obtain ⟨hfresh, -, hops', grown, rfl, -⟩ := mountTable_ok h
    exact ⟨Nat.succ_pos hops', List.concat_eq_append ▸ hinside.concat hfresh⟩
  | @follow table source ref target rest hsource hleads hrest ih =>
    obtain ⟨hfresh, -, hops', grown, rfl, hgrown, -⟩ := mountTable_ok h
    obtain ⟨_, _, child, hchild⟩ := mountBelow_of_mountColumns hgrown hsource
      (liveTarget?_eq_some_iff.2 ⟨ref, hleads, rfl⟩)
    obtain ⟨hlength, hnodup⟩ := ih hchild (List.concat_eq_append ▸ hinside.concat hfresh)
    refine ⟨Nat.succ_lt_succ hlength, ?_⟩
    rw [List.append_assoc] at hnodup
    exact hnodup

/-! ## The limits -/

/-- A chain of relations from the table visits a table twice. -/
def Revisits (schema : Schema) (root : Table) : Prop :=
  ∃ chain, schema.ChainFrom root chain ∧ ¬ (visited root chain).Nodup

/-- A chain of relations from the table is longer than the walk may go. -/
def TooDeep (schema : Schema) (root : Table) : Prop :=
  ∃ chain, schema.ChainFrom root chain ∧ maxHops < chain.length

/-- There are more chains of relations from the table than tables may be joined. -/
def TooWide (schema : Schema) (root : Table) : Prop :=
  ∃ chains : List Chain, chains.Nodup ∧ (∀ chain ∈ chains, schema.ChainFrom root chain) ∧
    maxTables < chains.length

/-- A text spells the tables of a chain that comes back to one of them at its end. -/
def SpellsCycle (schema : Schema) (root : Table) (text : String) : Prop :=
  ∃ before source last, schema.ChainFrom root (before ++ [(source, last)]) ∧
    last ∈ visited root before ∧
    text = " -> ".intercalate
      ((visited root (before ++ [(source, last)])).map Table.qualifiedName)

/-- What a fault of compiling a root says of its chains: each limit that is reported was
exceeded. -/
def Explains (schema : Schema) (root : Table) : SchemaFault → Prop
  | .cyclic text => schema.SpellsCycle root text
  | .depthExceeded limit => limit = maxHops ∧ schema.TooDeep root
  | .tooManyTables limit => limit = maxTables ∧ schema.TooWide root
  | .invalidShape _ | .ambiguousName _ _ => True
  | .unknownAlias _ _ | .missingReference _ _ => False

/-- The chains from a table, each once, with the table that each of them joins. -/
def JoinsChains (schema : Schema) (root : Table) (tables : List Table) : Prop :=
  ∃ chains : List Chain, chains.Nodup ∧ (∀ chain, chain ∈ chains ↔ schema.ChainFrom root chain) ∧
    tables = chains.mapIdx fun k chain => ((destination root chain).placedAt k).table

variable {root : Table}

theorem ChainFrom.mem_tables {chain : Chain} (h : schema.ChainFrom root chain)
    (hroot : root ∈ schema.tables) : visited root chain ⊆ schema.tables := by
  induction h with
  | stay table => exact List.cons_subset.2 ⟨hroot, List.nil_subset _⟩
  | follow hsource hleads hrest ih =>
    exact List.cons_subset.2 ⟨hroot, ih (mem_tables_of_table? hleads.found)⟩

/-- Under plain and distinct names, a valid schema has nothing besides the limits that could
stop the walk. -/
theorem Valid.expandable (hvalid : schema.Valid) (hplain : schema.PlainNames)
    (hnames : schema.DistinctNames) : schema.Expandable where
  resolves table htable column hcolumn fault hfault := by
    obtain ⟨ref, hdotted, -⟩ := hvalid.dotted_of_error htable hcolumn hfault
    exact hplain.not_dotted hvalid htable hdotted
  columns _ htable := hnames.nodup_visibleColumns htable

theorem SpellsCycle.revisits {text : String} (h : schema.SpellsCycle root text) :
    schema.Revisits root := by
  obtain ⟨before, source, last, hchain, hlast, -⟩ := h
  refine ⟨_, hchain, fun hnodup => ?_⟩
  rw [visited, List.map_append, ← List.cons_append] at hnodup
  exact List.disjoint_of_nodup_append hnodup hlast List.mem_cons_self

/-- A chain whose last name is a repeat comes back to a table, as long as a name belongs to
one table. -/
theorem spellsCycle_of_repeat (hroot : root ∈ schema.tables)
    (hunique : ∀ table ∈ schema.tables, schema.table? table.qualifiedName = some table)
    {chain : Chain} (hchain : schema.ChainFrom root chain)
    (hrepeat : EndsInRepeat ([root.qualifiedName] ++ chain.names)) :
    schema.SpellsCycle root (" -> ".intercalate ([root.qualifiedName] ++ chain.names)) := by
  obtain ⟨names, name, heq, hname⟩ := hrepeat
  rcases List.eq_nil_or_concat' chain with rfl | ⟨before, ⟨source, last⟩, rfl⟩
  · have hroot : [] ++ [root.qualifiedName] = names ++ [name] := heq
    obtain ⟨rfl, -⟩ := List.append_inj' hroot rfl
    cases hname
  · have hsplit : [root.qualifiedName] ++ Chain.names (before ++ [(source, last)]) =
        (visited root before).map Table.qualifiedName ++ [last.qualifiedName] := by
      simp [Chain.names, visited]
    obtain ⟨rfl, hlast⟩ := List.append_inj' (hsplit.symm.trans heq) rfl
    obtain ⟨rfl, -⟩ := List.cons.inj hlast
    obtain ⟨earlier, hearlier, hsame⟩ := List.mem_map.1 hname
    have hvisited := hchain.mem_tables hroot
    have hlastMem : last ∈ schema.tables := hvisited (by simp [visited])
    have hearlierMem : earlier ∈ schema.tables := hvisited (by
      rw [visited, List.map_append, ← List.cons_append]
      exact List.mem_append_left _ hearlier)
    obtain rfl : earlier = last := Option.some.inj
      ((hunique earlier hearlierMem).symm.trans (hsame ▸ hunique last hlastMem))
    refine ⟨before, source, earlier, hchain, hearlier, ?_⟩
    rw [hsplit]
    simp [visited]

/-- Whatever stops the mounting of a root is a limit that its chains exceed. -/
theorem limit_of_mountTable (hexpandable : schema.Expandable) (hroot : root ∈ schema.tables)
    (hunique : ∀ table ∈ schema.tables, schema.table? table.qualifiedName = some table)
    {fault : SchemaFault}
    (h : schema.mountTable (maxHops + 1) [] 0 "" root = .error fault) :
    (∃ text, fault = .cyclic text ∧ schema.SpellsCycle root text) ∨
      (fault = .depthExceeded maxHops ∧ schema.TooDeep root) ∨
      (fault = .tooManyTables maxTables ∧ schema.TooWide root) := by
  have hmount : schema.mountTable (maxHops + 1) [] 0 (leadOf []) root = .error fault := h
  cases limitHit_of_mountTable hexpandable hroot hmount with
  | cyclic hchain hrepeat =>
    exact .inl ⟨_, rfl, spellsCycle_of_repeat hroot hunique hchain hrepeat⟩
  | deep hchain hlong => exact .inr (.inl ⟨rfl, _, hchain, by omega⟩)
  | wide hnodup hchains hmany => exact .inr (.inr ⟨rfl, _, hnodup, hchains, by omega⟩)

/-- The chains of a root that is mounted exceed no limit. -/
theorem not_limit_of_mountTable {mounted : Mounted}
    (h : schema.mountTable (maxHops + 1) [] 0 "" root = .ok mounted) :
    ¬ (schema.Revisits root ∨ schema.TooDeep root ∨ schema.TooWide root) := by
  have hmount : schema.mountTable (maxHops + 1) [] 0 (leadOf []) root = .ok mounted := h
  rintro (⟨chain, hchain, hrepeat⟩ | ⟨chain, hchain, hlong⟩ | ⟨chains, hnodup, hchains, hmany⟩)
  · exact hrepeat (List.Nodup.of_map _ (within_of_mountTable h List.nodup_nil hchain).2)
  · have hlength := (within_of_mountTable h List.nodup_nil hchain).1
    omega
  · obtain ⟨expansion, hexpands, -, hfew⟩ := mounted_eq hmount
    have hlist : chains.length ≤ ([] :: expansion.chains).length :=
      (hnodup.subperm fun chain hchain =>
        hexpands.mem_chains_table.2 (hchains chain hchain)).length_le
    rw [List.length_cons, Expansion.length_chains] at hlist
    omega

end Schema

namespace Expansion

/-- The tables of an expansion are placed one after another. -/
theorem placed_hops (expansion : Expansion) (owner next : Nat) (table : Table) :
    (expansion.hops owner next).map (fun hop => hop.placed.table) =
      expansion.chains.mapIdx fun k chain =>
        ((destination table chain).placedAt (next + k)).table := by
  refine List.ext_getElem? fun k => ?_
  have htables := congrArg (·[k]?) (tables_hops expansion owner next table)
  simp only [List.getElem?_map] at htables
  rw [List.getElem?_map, List.getElem?_mapIdx]
  cases hhop : (expansion.hops owner next)[k]? with
  | none =>
    rw [hhop, Option.map_none, eq_comm, Option.map_eq_none_iff] at htables
    rw [htables]
    rfl
  | some hop =>
    rw [hhop, Option.map_some, eq_comm, Option.map_eq_some_iff] at htables
    obtain ⟨chain, hchain, hend⟩ := htables
    rw [hchain, Option.map_some, Option.map_some, hend, ← index_of_getElem?_hops hhop]
    rfl

end Expansion

namespace Resource

variable {schema : Schema} {root : Table} {resource : Resource}

/-- A resource joins one table for each chain of its root, in the order of the walk. -/
theorem joinsChains_of_compile (hcompile : compile schema root = .ok resource)
    (hroot : root ∈ schema.tables) (hnames : schema.DistinctNames) :
    schema.JoinsChains root resource.tables := by
  obtain ⟨expansion, hexpands, hmounted, -⟩ := mounted_of_compile hcompile
  refine ⟨[] :: expansion.chains, ?_, fun chain => hexpands.mem_chains_table, ?_⟩
  · exact List.nodup_cons.2 ⟨hexpands.nil_notMem_chains,
      hexpands.nodup_chains (hnames.nodup_visibleColumns hroot)
        fun table htable => hnames.nodup_visibleColumns htable⟩
  · rw [tables_eq hmounted, expansion.placed_hops 0 1 root, List.mapIdx_cons]
    simp only [Nat.add_comm 1]
    rfl

/-- A fault of compiling a root means its limit, or what is checked after mounting. -/
theorem explains_of_compile (hexpandable : schema.Expandable) (hroot : root ∈ schema.tables)
    (hunique : ∀ table ∈ schema.tables, schema.table? table.qualifiedName = some table)
    {fault : SchemaFault} (h : compile schema root = .error fault) :
    schema.Explains root fault := by
  rw [compile, if_neg (by simp [hunique root hroot])] at h
  rcases error_of_bind h with hmount | ⟨mounted, -, hmounted⟩
  · rcases Schema.limit_of_mountTable hexpandable hroot hunique hmount with
      ⟨text, rfl, hcycle⟩ | ⟨rfl, hdeep⟩ | ⟨rfl, hwide⟩
    · exact hcycle
    · exact ⟨rfl, hdeep⟩
    · exact ⟨rfl, hwide⟩
  · rcases ofMounted_error hmounted with ⟨misfit, rfl⟩ | ⟨name, shared, rfl⟩
    · trivial
    · trivial

/-- A root whose chains exceed a limit is stopped at a limit. -/
theorem stopped_of_limit (hunique : schema.table? root.qualifiedName = some root)
    (hlimit : schema.Revisits root ∨ schema.TooDeep root ∨ schema.TooWide root) :
    ∃ fault, schema.mountTable (maxHops + 1) [] 0 "" root = .error fault ∧
      compile schema root = .error fault := by
  cases hmount : schema.mountTable (maxHops + 1) [] 0 "" root with
  | ok mounted => exact absurd hlimit (Schema.not_limit_of_mountTable hmount)
  | error fault =>
    refine ⟨fault, rfl, ?_⟩
    rw [compile, if_neg (by simp [hunique]), hmount]
    rfl

/-- **The guard of the expansion is exact.** Compiling a table of a valid schema, cyclic or
not, always ends. It fails at one of the three limits exactly when the chains of relations
from the table exceed one, and each of the faults means its own limit. Otherwise two columns
share a name, or there is no column, or the table is compiled into a resource that joins one
table for each chain.

A cycle that is reported is a chain that comes back to a table; without such a chain none is
reported, also where two chains end in one table. -/
theorem expands_within_limits (hvalid : schema.validate = .ok ()) (hplain : schema.PlainNames)
    (hnames : schema.DistinctNames) (hroot : root ∈ schema.tables) :
    (((∃ text, compile schema root = .error (.cyclic text)) ∨
        (∃ limit, compile schema root = .error (.depthExceeded limit)) ∨
        (∃ limit, compile schema root = .error (.tooManyTables limit))) ↔
      (schema.Revisits root ∨ schema.TooDeep root ∨ schema.TooWide root)) ∧
    (¬ (schema.Revisits root ∨ schema.TooDeep root ∨ schema.TooWide root) →
      (∃ name shared, compile schema root = .error (.ambiguousName name shared)) ∨
      (∃ misfit, compile schema root = .error (.invalidShape misfit)) ∨
      ∃ resource, compile schema root = .ok resource ∧
        schema.JoinsChains root resource.tables) ∧
    (∀ text, compile schema root = .error (.cyclic text) → schema.SpellsCycle root text) ∧
    (∀ limit, compile schema root = .error (.depthExceeded limit) →
      limit = maxHops ∧ schema.TooDeep root) ∧
    (∀ limit, compile schema root = .error (.tooManyTables limit) →
      limit = maxTables ∧ schema.TooWide root) ∧
    (¬ schema.Revisits root → ∀ text, compile schema root ≠ .error (.cyclic text)) := by
  rw [Schema.validate_ok_iff] at hvalid
  have hexpandable := hvalid.expandable hplain hnames
  have hunique : ∀ table ∈ schema.tables, schema.table? table.qualifiedName = some table :=
    fun table htable => hplain.table?_eq hnames hvalid htable
  have hexplains : ∀ {fault}, compile schema root = .error fault → schema.Explains root fault :=
    explains_of_compile hexpandable hroot hunique
  have hcyclic : ∀ text, compile schema root = .error (.cyclic text) →
      schema.SpellsCycle root text := fun _ h => hexplains h
  refine ⟨⟨?_, ?_⟩, ?_, hcyclic, fun _ h => hexplains h, fun _ h => hexplains h,
    fun hfresh text h => hfresh (hcyclic text h).revisits⟩
  · rintro (⟨text, h⟩ | ⟨limit, h⟩ | ⟨limit, h⟩)
    · exact .inl (hcyclic text h).revisits
    · exact .inr (.inl (hexplains h).2)
    · exact .inr (.inr (hexplains h).2)
  · intro hlimit
    obtain ⟨fault, hmount, h⟩ := stopped_of_limit (hunique root hroot) hlimit
    rcases Schema.limit_of_mountTable hexpandable hroot hunique hmount with
      ⟨text, rfl, -⟩ | ⟨rfl, -⟩ | ⟨rfl, -⟩
    · exact .inl ⟨text, h⟩
    · exact .inr (.inl ⟨_, h⟩)
    · exact .inr (.inr ⟨_, h⟩)
  · intro hwithin
    cases h : compile schema root with
    | ok resource => exact .inr (.inr ⟨resource, rfl, joinsChains_of_compile h hroot hnames⟩)
    | error fault =>
      cases fault with
      | cyclic text => exact absurd (.inl (hcyclic text h).revisits) hwithin
      | depthExceeded limit => exact absurd (.inr (.inl (hexplains h).2)) hwithin
      | tooManyTables limit => exact absurd (.inr (.inr (hexplains h).2)) hwithin
      | invalidShape misfit => exact .inr (.inl ⟨misfit, rfl⟩)
      | ambiguousName name shared => exact .inl ⟨name, shared, rfl⟩
      | unknownAlias name alt => exact (hexplains h).elim
      | missingReference kind id => exact (hexplains h).elim

end Resource

/-! ## A cycle and a diamond -/

/-- Staff belong to a team, and a team is led by one of the staff. A meeting has a room and
a spare one. -/
def office : Catalog where
  databases := ["office"]
  tables := [("office", "rooms"), ("office", "staff"), ("office", "teams"), ("office", "meetings")]
  columns := [
    ⟨"office", "rooms", "id", "int(11)", false, "PRI", false⟩,
    ⟨"office", "staff", "id", "int(11)", false, "PRI", false⟩,
    ⟨"office", "staff", "team_id", "int(11)", false, "MUL", false⟩,
    ⟨"office", "teams", "id", "int(11)", false, "PRI", false⟩,
    ⟨"office", "teams", "lead_id", "int(11)", false, "MUL", false⟩,
    ⟨"office", "meetings", "id", "int(11)", false, "PRI", false⟩,
    ⟨"office", "meetings", "room_id", "int(11)", false, "MUL", false⟩,
    ⟨"office", "meetings", "spare_id", "int(11)", false, "MUL", false⟩]
  links := [⟨⟨"office", "staff", "team_id"⟩, ⟨"office", "teams", "id"⟩⟩,
    ⟨⟨"office", "teams", "lead_id"⟩, ⟨"office", "staff", "id"⟩⟩,
    ⟨⟨"office", "meetings", "room_id"⟩, ⟨"office", "rooms", "id"⟩⟩,
    ⟨⟨"office", "meetings", "spare_id"⟩, ⟨"office", "rooms", "id"⟩⟩]

def staffTable : Table :=
  ((office.toSchema [] []).table? "office.staff").getD default

def meetingsTable : Table :=
  ((office.toSchema [] []).table? "office.meetings").getD default

def meeting : Resource :=
  (Resource.compile (office.toSchema [] []) meetingsTable).toOption.get (by decide +kernel)

/-- Staff lead back to staff over their team, which is reported. The rooms of a meeting are
reached twice and are no cycle: the meeting exceeds no limit. -/
theorem staff_cyclic_meeting_joined :
    (office.toSchema [] []).validate = .ok () ∧ (office.toSchema [] []).PlainNames ∧
      (office.toSchema [] []).DistinctNames ∧
      (staffTable ∈ (office.toSchema [] []).tables ∧
        Resource.compile (office.toSchema [] []) staffTable =
          .error (.cyclic "office.staff -> office.teams -> office.staff") ∧
        (office.toSchema [] []).SpellsCycle staffTable
          "office.staff -> office.teams -> office.staff") ∧
      meetingsTable ∈ (office.toSchema [] []).tables ∧
      Resource.compile (office.toSchema [] []) meetingsTable = .ok meeting ∧
      meeting.tables.map Table.name = ["meetings", "rooms", "rooms"] ∧
      ¬ ((office.toSchema [] []).Revisits meetingsTable ∨
        (office.toSchema [] []).TooDeep meetingsTable ∨
        (office.toSchema [] []).TooWide meetingsTable) := by
  have hvalid : (office.toSchema [] []).validate = .ok () := by decide +kernel
  have hplain : (office.toSchema [] []).PlainNames := by decide +kernel
  have hnames : (office.toSchema [] []).DistinctNames := by decide +kernel
  have hstaff : staffTable ∈ (office.toSchema [] []).tables := by decide +kernel
  have hmeetings : meetingsTable ∈ (office.toSchema [] []).tables := by decide +kernel
  have hcyclic : Resource.compile (office.toSchema [] []) staffTable =
      .error (.cyclic "office.staff -> office.teams -> office.staff") :=
    eq_error_of_map (by decide +kernel)
  have hcompile : Resource.compile (office.toSchema [] []) meetingsTable = .ok meeting :=
    eq_ok_get _
  have hspells := (Resource.expands_within_limits hvalid hplain hnames hstaff).2.2.1 _ hcyclic
  refine ⟨hvalid, hplain, hnames, ⟨hstaff, hcyclic, hspells⟩, hmeetings, hcompile,
    by decide +kernel, fun hlimit => ?_⟩
  have hstopped := (Resource.expands_within_limits hvalid hplain hnames hmeetings).1.2 hlimit
  rw [hcompile] at hstopped
  rcases hstopped with ⟨_, h⟩ | ⟨_, h⟩ | ⟨_, h⟩ <;> cases h

end TableApi
