import TableApi.Proofs.Shape
import TableApi.Proofs.Steps
import TableApi.Resource.Compile

/-!
# What mounting yields

Mounting is inverted once: `mountColumns_cons` says all that a step over a column
can do, `mountTable_ok` all that mounting a table can do. From these two the
invariants of a compiled resource follow by one induction each: every table's tree
is keyed (`Resource.keyed`), and every place is a mounted table of its own
(`mounts_of_place`).
-/

namespace TableApi

namespace Schema

variable {schema : Schema}

/-- What mounting a first column comes to: either its relation is not live and it
is a plain column, or the target is mounted below it; then the other columns
follow. -/
theorem mountColumns_cons {mountBelow : Nat → String → Table → Except SchemaFault Mounted}
    {owner lead : String} {next : Nat} {source : Column} {rest : List Column} {grown : Grown}
    (h : schema.mountColumns mountBelow owner lead next (source :: rest) = .ok grown) :
    (schema.liveTarget? (source.mounted owner lead) = .ok none ∧
      ∃ others, schema.mountColumns mountBelow owner lead next rest = .ok others ∧
        grown = { others with
          required :=
            if (source.mounted owner lead).isPrimary then others.required
            else (source.mounted owner lead).displayName.primary :: others.required
          entries := ((source.mounted owner lead).qualifiedName,
            .column (source.mounted owner lead)) :: others.entries }) ∨
    (∃ table referenced child others,
      schema.liveTarget? (source.mounted owner lead) = .ok (some (table, referenced)) ∧
      mountBelow next ((source.mounted owner lead).displayName.primary ++ "_") table = .ok child ∧
      schema.mountColumns mountBelow owner lead (next + 1 + child.below.length) rest
        = .ok others ∧
      grown =
        { below := child.root.table :: child.below ++ others.below
          joins := ⟨owner, source.name, tableAlias next, referenced⟩ ::
            child.joins ++ others.joins
          required := others.required
          requiredBelow := child.required ++ others.requiredBelow
          entries := ((source.mounted owner lead).qualifiedName,
              .column (source.mounted owner lead)) ::
            ((source.mounted owner lead).branchKey, .branch child.root child.entries) ::
              others.entries }) := by
  rw [mountColumns] at h
  cases htarget : schema.liveTarget? (source.mounted owner lead) with
  | error fault => simp [htarget, bind, Except.bind] at h
  | ok target =>
    cases target with
    | none =>
      left
      cases hrest : schema.mountColumns mountBelow owner lead next rest with
      | error fault => simp [htarget, hrest, bind, Except.bind] at h
      | ok others =>
        simp only [htarget, hrest, bind, Except.bind, Except.ok.injEq] at h
        exact ⟨rfl, others, rfl, h.symm⟩
    | some target =>
      right
      obtain ⟨table, referenced⟩ := target
      cases hchild : mountBelow next ((source.mounted owner lead).displayName.primary ++ "_") table with
      | error fault => simp [htarget, hchild, bind, Except.bind] at h
      | ok child =>
        cases hrest : schema.mountColumns mountBelow owner lead
            (next + 1 + child.below.length) rest with
        | error fault => simp [htarget, hchild, hrest, bind, Except.bind] at h
        | ok others =>
          simp only [htarget, hchild, hrest, bind, Except.bind, Except.ok.injEq] at h
          exact ⟨table, referenced, child, others, rfl, hchild, hrest, h.symm⟩

/-- What mounting a table comes to: the walk is not inside of the table, may go one
step further, and mounts its visible columns. -/
theorem mountTable_ok {hops : Nat} {path : List String} {index : Nat} {lead : String}
    {table : Table} {mounted : Mounted}
    (h : schema.mountTable hops path index lead table = .ok mounted) :
    table.qualifiedName ∉ path ∧ index < maxTables ∧
      ∃ hops' grown, hops = hops' + 1 ∧
        schema.mountColumns (schema.mountTable hops' (path ++ [table.qualifiedName]))
          (tableAlias index) lead (index + 1) table.visibleColumns = .ok grown ∧
        mounted =
          { root := ⟨index, { table with storageAlias := some (tableAlias index) }⟩
            below := grown.below
            joins := grown.joins
            required := grown.required :: grown.requiredBelow
            entries := Entries.ofList grown.entries } := by
  unfold mountTable at h
  split at h
  · simp at h
  · next hpath =>
    refine ⟨by simpa using hpath, ?_⟩
    cases hops with
    | zero => simp at h
    | succ hops =>
      simp only at h
      split at h
      · simp at h
      · next hindex =>
        refine ⟨by omega, hops, ?_⟩
        cases hgrown : schema.mountColumns (schema.mountTable hops (path ++ [table.qualifiedName]))
            (tableAlias index) lead (index + 1) table.visibleColumns with
        | error fault => simp [hgrown, bind, Except.bind] at h
        | ok grown =>
          simp only [hgrown, bind, Except.bind, Except.ok.injEq] at h
          exact ⟨grown, rfl, rfl, h.symm⟩

/-- Where mounting a first column and those behind it fails: the column's relation does
not resolve, the target cannot be mounted below it, or a later column fails, for which the
next number is as the first column leaves it. -/
theorem mountColumns_cons_error
    {mountBelow : Nat → String → Table → Except SchemaFault Mounted} {owner lead : String}
    {next : Nat} {source : Column} {rest : List Column} {fault : SchemaFault}
    (h : schema.mountColumns mountBelow owner lead next (source :: rest) = .error fault) :
    schema.liveTarget? (source.mounted owner lead) = .error fault ∨
    (∃ table referenced,
      schema.liveTarget? (source.mounted owner lead) = .ok (some (table, referenced)) ∧
      mountBelow next ((source.mounted owner lead).displayName.primary ++ "_") table =
        .error fault) ∨
    ∃ later, schema.mountColumns mountBelow owner lead later rest = .error fault ∧
      ((schema.liveTarget? (source.mounted owner lead) = .ok none ∧ later = next) ∨
        ∃ table referenced child,
          schema.liveTarget? (source.mounted owner lead) = .ok (some (table, referenced)) ∧
          mountBelow next ((source.mounted owner lead).displayName.primary ++ "_") table =
            .ok child ∧
          later = next + 1 + child.below.length) := by
  rw [mountColumns] at h
  rcases error_of_bind h with htarget | ⟨target, htarget, h⟩
  · exact .inl htarget
  · cases target with
    | none =>
      rcases error_of_bind h with hrest | ⟨others, -, h⟩
      · exact .inr (.inr ⟨_, hrest, .inl ⟨htarget, rfl⟩⟩)
      · cases h
    | some target =>
      rcases error_of_bind h with hchild | ⟨child, hchild, h⟩
      · exact .inr (.inl ⟨target.1, target.2, htarget, hchild⟩)
      · rcases error_of_bind h with hrest | ⟨others, -, h⟩
        · exact .inr (.inr ⟨_, hrest, .inr ⟨target.1, target.2, child, htarget, hchild, rfl⟩⟩)
        · cases h

/-- Where mounting a table fails: the walk is inside of the table already, may go no step
further, has mounted all tables that it may, or fails at the table's columns. -/
theorem mountTable_error {hops : Nat} {path : List String} {index : Nat} {lead : String}
    {table : Table} {fault : SchemaFault}
    (h : schema.mountTable hops path index lead table = .error fault) :
    (table.qualifiedName ∈ path ∧
      fault = .cyclic (" -> ".intercalate (path ++ [table.qualifiedName]))) ∨
    (hops = 0 ∧ fault = .depthExceeded maxHops) ∨
    (maxTables ≤ index ∧ fault = .tooManyTables maxTables) ∨
    ∃ hops', hops = hops' + 1 ∧
      schema.mountColumns (schema.mountTable hops' (path ++ [table.qualifiedName]))
        (tableAlias index) lead (index + 1) table.visibleColumns = .error fault := by
  unfold mountTable at h
  split at h
  · next hpath =>
    cases h
    exact .inl ⟨by simpa using hpath, rfl⟩
  · cases hops with
    | zero =>
      cases h
      exact .inr (.inl ⟨rfl, rfl⟩)
    | succ hops =>
      simp only at h
      split at h
      · next hindex =>
        cases h
        exact .inr (.inr (.inl ⟨hindex, rfl⟩))
      · rcases error_of_bind h with hcolumns | ⟨grown, -, h⟩
        · exact .inr (.inr (.inr ⟨hops, rfl, hcolumns⟩))
        · cases h

/-- What stands under a key of a mounted table: one of its columns, or what
mounting the target of one of them came to. -/
theorem mem_mountColumns {mountBelow : Nat → String → Table → Except SchemaFault Mounted}
    {owner lead : String} {columns : List Column} {next : Nat} {grown : Grown}
    (h : schema.mountColumns mountBelow owner lead next columns = .ok grown)
    {key : String} {slot : Slot} (hentry : (key, slot) ∈ grown.entries) :
    ∃ source ∈ columns,
      (key, slot) = ((source.mounted owner lead).qualifiedName,
        .column (source.mounted owner lead)) ∨
      ∃ index leadBelow table referenced child,
        schema.liveTarget? (source.mounted owner lead) = .ok (some (table, referenced)) ∧
        mountBelow index leadBelow table = .ok child ∧
        (key, slot) = ((source.mounted owner lead).branchKey,
          .branch child.root child.entries) := by
  induction columns generalizing next grown with
  | nil =>
    cases h
    simp at hentry
  | cons source rest ih =>
    rcases mountColumns_cons h with ⟨-, others, hothers, rfl⟩ |
      ⟨table, referenced, child, others, hlive, hchild, hothers, rfl⟩
    · rcases List.mem_cons.1 hentry with heq | hentry
      · exact ⟨source, List.mem_cons_self, .inl heq⟩
      · obtain ⟨other, hother, hcases⟩ := ih hothers hentry
        exact ⟨other, List.mem_cons_of_mem _ hother, hcases⟩
    · rcases List.mem_cons.1 hentry with heq | hentry
      · exact ⟨source, List.mem_cons_self, .inl heq⟩
      rcases List.mem_cons.1 hentry with heq | hentry
      · exact ⟨source, List.mem_cons_self,
          .inr ⟨next, _, table, referenced, child, hlive, hchild, heq⟩⟩
      · obtain ⟨other, hother, hcases⟩ := ih hothers hentry
        exact ⟨other, List.mem_cons_of_mem _ hother, hcases⟩

/-- Mounting columns mounts the live target of each of them. -/
theorem mountBelow_of_mountColumns
    {mountBelow : Nat → String → Table → Except SchemaFault Mounted} {owner lead : String}
    {columns : List Column} {next : Nat} {grown : Grown}
    (h : schema.mountColumns mountBelow owner lead next columns = .ok grown) {source : Column}
    (hsource : source ∈ columns) {table : Table} {referenced : String}
    (hlive : schema.liveTarget? source = .ok (some (table, referenced))) :
    ∃ index leadBelow child, mountBelow index leadBelow table = .ok child := by
  induction columns generalizing next grown with
  | nil => cases hsource
  | cons first rest ih =>
    rcases mountColumns_cons h with ⟨hplain, others, hothers, -⟩ |
      ⟨found, name, child, others, hfirst, hchild, hothers, -⟩
    · rcases List.mem_cons.1 hsource with rfl | hsource
      · cases hplain.symm.trans hlive
      · exact ih hothers hsource
    · rcases List.mem_cons.1 hsource with rfl | hsource
      · cases hfirst.symm.trans hlive
        exact ⟨_, _, child, hchild⟩
      · exact ih hothers hsource

/-- A live target is a table of the schema. -/
theorem table?_of_liveTarget? {column : Column} {table : Table} {referenced : String}
    (h : schema.liveTarget? column = .ok (some (table, referenced))) :
    ∃ path, schema.table? path = some table := by
  unfold liveTarget? at h
  split at h
  · simp at h
  · next target _ =>
    split at h
    · simp at h
    · next found hfound =>
      split at h
      · simp at h
      · simp only [Except.ok.injEq] at h
        split at h
        · simp at h
        · obtain ⟨rfl, -⟩ : found = table ∧ target.column = referenced := by simpa using h
          exact ⟨_, hfound⟩

/-- What mounting a table comes to, as a relation. -/
def Mounts (schema : Schema) (table : Table) (mounted : Mounted) : Prop :=
  ∃ hops path index lead, schema.mountTable hops path index lead table = .ok mounted

/-- The tree of a mounted table is keyed. -/
theorem keyed_of_mountTable {hops : Nat} {path : List String} {index : Nat} {lead : String}
    {table : Table} {mounted : Mounted}
    (h : schema.mountTable hops path index lead table = .ok mounted) :
    (Slot.shape mounted.entries).Keyed := by
  -- The induction is on the hops: each branch is a mount with one less.
  induction hops generalizing path index lead table mounted with
  | zero =>
    obtain ⟨-, -, hops', grown, hhops, -⟩ := mountTable_ok h
    omega
  | succ hops ih =>
    obtain ⟨-, -, hops', grown, hhops, hgrown, rfl⟩ := mountTable_ok h
    obtain rfl : hops = hops' := by omega
    refine Slot.keyed_shape (Entries.nodup_keys_ofList _) fun entry hentry => ?_
    obtain ⟨key, slot⟩ := entry
    obtain ⟨source, -, heq | ⟨_, _, _, _, child, -, hchild, heq⟩⟩ :=
      mem_mountColumns hgrown (Entries.mem_of_mem_ofList hentry)
    · cases heq
      rfl
    · cases heq
      exact ih hchild

/-- Every place of a mounted table is itself a mounted table of the schema. -/
theorem mounts_of_place {hops : Nat} {path : List String} {index : Nat} {lead : String}
    {table : Table} {mounted : Mounted}
    (h : schema.mountTable hops path index lead table = .ok mounted)
    {placed : Placed} {inner : Shape}
    (hplace : (placed, inner) ∈ (Slot.shape mounted.entries).places) :
    ∃ found below tablePath, schema.table? tablePath = some found ∧ schema.Mounts found below ∧
      placed = below.root ∧ inner = Slot.shape below.entries := by
  induction hops generalizing path index lead table mounted with
  | zero =>
    obtain ⟨-, -, hops', grown, hhops, -⟩ := mountTable_ok h
    omega
  | succ hops ih =>
    obtain ⟨-, -, hops', grown, hhops, hgrown, rfl⟩ := mountTable_ok h
    obtain rfl : hops = hops' := by omega
    obtain ⟨key, -, branchPlaced, below, -, hbranch, hhere⟩ := Slot.mem_places_link hplace
    obtain ⟨source, -, heq | ⟨_, _, found, _, child, hlive, hchild, heq⟩⟩ :=
      mem_mountColumns hgrown (Entries.mem_of_mem_ofList hbranch)
    · exact absurd (congrArg Prod.snd heq) (by simp)
    · obtain ⟨rfl, rfl⟩ := Slot.branch.inj (congrArg Prod.snd heq)
      rcases List.mem_cons.1 hhere with heq | hdeeper
      · cases heq
        obtain ⟨tablePath, hfound⟩ := table?_of_liveTarget? hlive
        exact ⟨found, child, tablePath, hfound, ⟨_, _, _, _, hchild⟩, rfl, rfl⟩
      · exact ih hchild hdeeper

end Schema

namespace Resource

variable {schema : Schema} {root : Table} {resource : Resource}

/-- Where a mounted table makes no resource: it has no columns, or two of them share a
name. -/
theorem ofMounted_error {mounted : Mounted} {fault : SchemaFault}
    (h : ofMounted mounted = .error fault) :
    (∃ misfit, fault = .invalidShape misfit) ∨ ∃ name shared, fault = .ambiguousName name shared := by
  unfold ofMounted at h
  simp only at h
  split at h
  · cases h
    exact .inl ⟨_, rfl⟩
  · split at h
    · cases h
      exact .inr ⟨_, _, rfl⟩
    · cases h

/-- A compiled resource is what mounting its root came to. It has columns, which share no
name. -/
theorem compiled (h : compile schema root = .ok resource) :
    schema.mountTable (maxHops + 1) [] 0 "" root = .ok resource.toMounted ∧
      resource.columns ≠ [] ∧ sharedName? resource.columns = none := by
  unfold compile at h
  split at h
  · cases h
  · obtain ⟨mounted, hmounted, hresource⟩ := ok_of_bind h
    unfold ofMounted at hresource
    simp only at hresource
    split at hresource
    · cases hresource
    · next hcolumns =>
      split at hresource
      · cases hresource
      · next hapart =>
        cases hresource
        exact ⟨hmounted, fun hnone => hcolumns (List.isEmpty_iff.2 hnone), hapart⟩

theorem mountTable_of_compile (h : compile schema root = .ok resource) :
    schema.mountTable (maxHops + 1) [] 0 "" root = .ok resource.toMounted :=
  (compiled h).1

/-- The tree of a compiled resource is keyed. -/
theorem keyed (h : compile schema root = .ok resource) : resource.shape.Keyed :=
  Schema.keyed_of_mountTable (mountTable_of_compile h)

end Resource

namespace Schema

variable {schema : Schema}

theorem servedTables_subset : schema.servedTables ⊆ schema.tables := by
  intro table htable
  obtain ⟨database, hdatabase, htable⟩ := List.mem_flatMap.1 htable
  exact List.mem_flatMap.2
    ⟨database, List.mem_of_mem_filter hdatabase, List.mem_of_mem_filter htable⟩

theorem compile_of_mem_resourcesOf {tables : List Table} {resources : List Resource}
    (h : schema.resourcesOf tables = .ok resources) {resource : Resource}
    (hmem : resource ∈ resources) :
    ∃ root ∈ tables, Resource.compile schema root = .ok resource := by
  induction tables generalizing resources with
  | nil =>
    cases h
    cases hmem
  | cons table rest ih =>
    rw [resourcesOf] at h
    rcases hcompile : Resource.compile schema table with fault | first
    · rw [hcompile] at h
      simp only at h
      split at h
      · obtain ⟨root, hroot, hresource⟩ := ih h hmem
        exact ⟨root, List.mem_cons_of_mem _ hroot, hresource⟩
      · cases h
    · rw [hcompile] at h
      obtain ⟨others, hothers, h⟩ := ok_of_bind h
      cases h
      rcases List.mem_cons.1 hmem with rfl | hmem
      · exact ⟨table, List.mem_cons_self, hcompile⟩
      · obtain ⟨root, hroot, hresource⟩ := ih hothers hmem
        exact ⟨root, List.mem_cons_of_mem _ hroot, hresource⟩

/-- Every resource of a schema is compiled over one of the tables that are served. -/
theorem compile_of_mem_resources {resources : List Resource}
    (h : schema.resources = .ok resources) {resource : Resource} (hmem : resource ∈ resources) :
    ∃ root ∈ schema.servedTables, Resource.compile schema root = .ok resource := by
  obtain ⟨_, -, h⟩ := ok_of_bind h
  exact compile_of_mem_resourcesOf h hmem

end Schema

end TableApi
