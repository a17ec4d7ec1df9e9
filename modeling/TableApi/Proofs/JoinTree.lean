import TableApi.Catalog
import TableApi.Proofs.Expansion

/-!
# The joins of a resource form a tree

A resource numbers its tables from the root in the order of a depth-first walk, and
each join leads from a table to the one that is mounted next. The alias of that table
is written into the join before the table is mounted, so the two agree only if nothing
is mounted in between. `joins_form_tree` says that they do, for every tree of
relations, and that the display name of every column spells the path of foreign keys
that leads to its table.

The columns are read off entries that may overwrite each other. An entry that is lost
takes columns away and adds none, so the statement needs no condition: every column
that is left is a column of the expansion (`Expansion.site_of_leaf`).
-/

namespace TableApi

/-! ## Where the columns of a tree come from -/

/-- A column in the tree of a resource: the number of its table, the foreign keys that
lead to the table, and the column as the schema has it. -/
structure Site where
  number : Nat
  path : List Column
  source : Column

def Site.column (site : Site) : Column :=
  site.source.mounted (tableAlias site.number) (leadOf site.path)

namespace Expansion

/-- Every column of an expansion, in the order of a depth-first walk. -/
def sites (owner next : Nat) (path : List Column) : Expansion → List Site
  | nil => []
  | plain source rest => ⟨owner, path, source⟩ :: rest.sites owner next path
  | follow source _ _ inner rest =>
    ⟨owner, path, source⟩ :: inner.sites next (next + 1) (path ++ [source]) ++
      rest.sites owner (next + 1 + inner.size) path

end Expansion

/-- A leaf of a tree is a column among the entries, or a leaf of a branch among them. -/
theorem Slot.mem_leaves_link {entries rest : Entries Slot} {leaf : Column}
    (h : leaf ∈ (link (branches entries) rest).leaves) :
    (∃ key, (key, column leaf) ∈ rest) ∨
      ∃ key placed below, (key, branch placed below) ∈ entries ∧ leaf ∈ (shape below).leaves := by
  induction rest with
  | nil => cases h
  | cons entry rest ih =>
    obtain ⟨key, slot⟩ := entry
    have hrest : leaf ∈ (link (branches entries) rest).leaves →
        (∃ key', (key', column leaf) ∈ (key, slot) :: rest) ∨
          ∃ key' placed below, (key', branch placed below) ∈ entries ∧
            leaf ∈ (shape below).leaves := by
      intro hleaf
      rcases ih hleaf with ⟨key', hkey'⟩ | hbranch
      · exact .inl ⟨key', List.mem_cons_of_mem _ hkey'⟩
      · exact .inr hbranch
    cases slot with
    | branch placed below => exact hrest h
    | column c =>
      cases hget : (branches entries).get? (branchKey key) with
      | none =>
        rw [link, hget] at h
        rcases List.mem_cons.1 h with rfl | h
        · exact .inl ⟨key, List.mem_cons_self⟩
        · exact hrest h
      | some opened =>
        obtain ⟨placed, inner⟩ := opened
        obtain ⟨below, hbelow, rfl⟩ := mem_of_get?_branches hget
        rw [link, hget] at h
        rcases List.mem_append.1 h with h | h
        · exact .inr ⟨branchKey key, placed, below, hbelow, h⟩
        · exact hrest h

namespace Expansion

/-- What a slot shows at the level of a tree and below is among some sites. -/
def Shown (sites : List Site) : Slot → Prop
  | .column column => ∃ site ∈ sites, column = site.column
  | .branch _ below => ∀ column ∈ (Slot.shape below).leaves, ∃ site ∈ sites, column = site.column

theorem Shown.mono {sites more : List Site} {slot : Slot} (h : Shown sites slot)
    (hsub : sites ⊆ more) : Shown more slot := by
  cases slot with
  | column column =>
    obtain ⟨site, hsite, heq⟩ := h
    exact ⟨site, hsub hsite, heq⟩
  | branch placed below =>
    intro column hcolumn
    obtain ⟨site, hsite, heq⟩ := h column hcolumn
    exact ⟨site, hsub hsite, heq⟩

/-- Whatever is written among the entries shows columns of the expansion only. -/
theorem shown_of_mem_entries {expansion : Expansion} {owner next : Nat} {path : List Column}
    {key : String} {slot : Slot} (h : (key, slot) ∈ (expansion.grown owner next path).entries) :
    Shown (expansion.sites owner next path) slot := by
  induction expansion generalizing owner next path key slot with
  | nil => cases h
  | plain source rest ih =>
    rcases List.mem_cons.1 h with heq | h
    · cases heq
      exact ⟨_, List.mem_cons_self, rfl⟩
    · exact (ih h).mono (List.subset_cons_self _ _)
  | follow source table referenced inner rest ihInner ihRest =>
    rcases List.mem_cons.1 h with heq | h
    · cases heq
      exact ⟨_, List.mem_cons_self, rfl⟩
    rcases List.mem_cons.1 h with heq | h
    · cases heq
      intro column hcolumn
      -- The entries of the branch may have overwritten each other; those left were written.
      rcases Slot.mem_leaves_link hcolumn with ⟨key, hkey⟩ | ⟨key, placed, below, hkey, hbelow⟩
      · obtain ⟨site, hsite, heq⟩ := ihInner (Entries.mem_of_mem_ofList hkey)
        exact ⟨site, List.mem_append_left _ (List.mem_cons_of_mem _ hsite), heq⟩
      · obtain ⟨site, hsite, heq⟩ := ihInner (Entries.mem_of_mem_ofList hkey) column hbelow
        exact ⟨site, List.mem_append_left _ (List.mem_cons_of_mem _ hsite), heq⟩
    · exact (ihRest h).mono (List.subset_append_right _ _)

/-- Every leaf of a mounted table is a column of its expansion. -/
theorem site_of_leaf {expansion : Expansion} {owner next : Nat} {path : List Column}
    {column : Column}
    (h : column ∈ (Slot.shape (Entries.ofList (expansion.grown owner next path).entries)).leaves) :
    ∃ site ∈ expansion.sites owner next path, column = site.column := by
  rcases Slot.mem_leaves_link h with ⟨key, hkey⟩ | ⟨key, placed, below, hkey, hbelow⟩
  · exact shown_of_mem_entries (Entries.mem_of_mem_ofList hkey)
  · exact shown_of_mem_entries (Entries.mem_of_mem_ofList hkey) column hbelow

end Expansion

/-! ## Paths of foreign keys -/

/-- Join number `k` leads from table number `j`, over its visible column `source`, to
the column that `source` references in the table that is mounted next. -/
structure Resource.Follows (schema : Schema) (resource : Resource) (k j : Nat)
    (source : Column) : Prop where
  earlier : j ≤ k
  visible : ∃ left, resource.tables[j]? = some left ∧ source ∈ left.visibleColumns
  joined : ∃ target table, schema.LeadsTo source target table ∧
    resource.tables[k + 1]? = some { table with storageAlias := some (tableAlias (k + 1)) } ∧
    resource.joins[k]? = some ⟨tableAlias j, source.name, tableAlias (k + 1), target.column⟩

/-- The foreign keys that lead from the root to a table, in order. -/
inductive Resource.RelationPath (schema : Schema) (resource : Resource) :
    Nat → List Column → Prop
  | root : RelationPath schema resource 0 []
  | step {k j source path} (hpath : RelationPath schema resource j path)
      (hfollows : resource.Follows schema k j source) :
      RelationPath schema resource (k + 1) (path ++ [source])

/-- The lead of a path and a name behind it are the names of the path and the name,
joined by underscores. -/
theorem leadOf_append_name (path : List Column) (source : Column) :
    leadOf path ++ source.displayName.primary =
      "_".intercalate ((path ++ [source]).map fun column => column.displayName.primary) := by
  induction path with
  | nil => simp [leadOf, String.intercalate_singleton]
  | cons first rest ih =>
    have hne : (rest ++ [source]).map (fun column => column.displayName.primary) ≠ [] := by simp
    rw [List.cons_append, List.map_cons, String.intercalate_cons_of_ne_nil hne, ← ih]
    simp [leadOf, String.append_assoc]

/-- The path of every column of an expansion leads to the column's table, if the paths
so far do and every foreign key that is followed has its join. -/
theorem Schema.Expands.path_of_site {schema : Schema} {resource : Resource} {columns : List Column}
    {expansion : Expansion} (h : schema.Expands columns expansion) {table : Table}
    (hcolumns : columns ⊆ table.visibleColumns) {owner next : Nat} {path : List Column}
    (hpath : resource.RelationPath schema owner path)
    (hfollows : ∀ hop ∈ expansion.hops owner next, ∃ k, hop.index = k + 1 ∧
      resource.Follows schema k hop.owner hop.source)
    {site : Site} (hsite : site ∈ expansion.sites owner next path) :
    resource.RelationPath schema site.number site.path ∧
      ∃ found, (site.number, found) ∈
          (owner, table) ::
            (expansion.hops owner next).map (fun other => (other.index, other.table)) ∧
        site.source ∈ found.visibleColumns := by
  induction h generalizing table owner next path with
  | nil => cases hsite
  | plain hlive hrest ih =>
    rcases List.mem_cons.1 hsite with rfl | hsite
    · exact ⟨hpath, table, List.mem_cons_self, hcolumns List.mem_cons_self⟩
    · exact ih (List.subset_of_cons_subset hcolumns) hpath hfollows hsite
  | @follow source rest target referenced inner others hlive hinner hrest ihInner ihRest =>
    rw [Expansion.sites, List.cons_append, List.mem_cons, List.mem_append] at hsite
    rw [Expansion.hops, List.cons_append, List.map_cons, List.map_append]
    rw [Expansion.hops, List.cons_append] at hfollows
    rcases hsite with rfl | hsite | hsite
    · exact ⟨hpath, table, List.mem_cons_self, hcolumns List.mem_cons_self⟩
    · obtain ⟨k, hk, hstep⟩ := hfollows _ List.mem_cons_self
      obtain rfl : next = k + 1 := hk
      have hnext : resource.RelationPath schema (k + 1) (path ++ [source]) := hpath.step hstep
      obtain ⟨hreached, found, hfound, hsource⟩ := ihInner (List.Subset.refl _) hnext
        (fun hop hhop => hfollows hop (List.mem_cons_of_mem _ (List.mem_append_left _ hhop))) hsite
      exact ⟨hreached, found, List.mem_cons_of_mem _ (List.mem_append_left _ hfound), hsource⟩
    · obtain ⟨hreached, found, hfound, hsource⟩ := ihRest
        (List.subset_of_cons_subset hcolumns) hpath
        (fun hop hhop => hfollows hop (List.mem_cons_of_mem _ (List.mem_append_right _ hhop))) hsite
      refine ⟨hreached, found, ?_, hsource⟩
      rcases List.mem_cons.1 hfound with heq | hfound
      · rw [heq]
        exact List.mem_cons_self
      · exact List.mem_cons_of_mem _ (List.mem_cons_of_mem _ (List.mem_append_right _ hfound))

/-! ## The tables and joins of a resource -/

namespace Resource

variable {schema : Schema} {root : Table} {resource : Resource} {expansion : Expansion}

theorem tables_eq (h : resource.toMounted = expansion.mounted root 0 []) :
    resource.tables =
      (root.placedAt 0).table :: (expansion.hops 0 1).map fun hop => hop.placed.table := by
  rw [tables, h, ← expansion.below_grown 0 1 []]
  rfl

theorem joins_eq (h : resource.toMounted = expansion.mounted root 0 []) :
    resource.joins = (expansion.hops 0 1).map Hop.join := by
  rw [h, ← expansion.joins_grown 0 1 []]
  rfl

/-- A table of the expansion is found under its number. -/
theorem getElem?_tables (h : resource.toMounted = expansion.mounted root 0 []) {number : Nat}
    {found : Table} (hfound : (number, found) ∈
      (0, root) :: (expansion.hops 0 1).map (fun hop => (hop.index, hop.table))) :
    resource.tables[number]? = some (found.placedAt number).table := by
  rw [tables_eq h]
  rcases List.mem_cons.1 hfound with heq | hfound
  · cases heq
    rfl
  · obtain ⟨hop, hhop, heq⟩ := List.mem_map.1 hfound
    cases heq
    obtain ⟨k, hk⟩ := List.mem_iff_getElem?.1 hhop
    have hindex : hop.index = k + 1 :=
      (Expansion.index_of_getElem?_hops hk).trans (Nat.add_comm 1 k)
    rw [hindex, List.getElem?_cons_succ, List.getElem?_map, hk]
    show some (hop.table.placedAt hop.index).table = _
    rw [hindex]

/-- Every table is mounted under the alias of its number. -/
theorem storageAlias_of_getElem? (h : resource.toMounted = expansion.mounted root 0 []) {i : Nat}
    {table : Table} (htable : resource.tables[i]? = some table) :
    table.storageAlias = some (tableAlias i) := by
  rw [tables_eq h] at htable
  cases i with
  | zero =>
    cases htable
    rfl
  | succ k =>
    rw [List.getElem?_cons_succ, List.getElem?_map, Option.map_eq_some_iff] at htable
    obtain ⟨hop, hhop, rfl⟩ := htable
    rw [Nat.add_comm k 1, ← Expansion.index_of_getElem?_hops hhop]
    rfl

/-- Each foreign key that is followed has its join. -/
theorem follows_hop (h : resource.toMounted = expansion.mounted root 0 [])
    (hexpands : schema.Expands root.visibleColumns expansion) {k : Nat} {hop : Hop}
    (hhop : (expansion.hops 0 1)[k]? = some hop) :
    hop.index = k + 1 ∧ resource.Follows schema k hop.owner hop.source := by
  have hmem : hop ∈ expansion.hops 0 1 := List.mem_of_getElem? hhop
  have hindex : hop.index = k + 1 :=
    (Expansion.index_of_getElem?_hops hhop).trans (Nat.add_comm 1 k)
  obtain ⟨hlive, found, hfound, hsource⟩ := hexpands.mem_hops (List.Subset.refl _) hmem
  obtain ⟨target, hleads, htarget⟩ := Schema.liveTarget?_eq_some_iff.1 hlive
  refine ⟨hindex, ?_, ⟨_, getElem?_tables h hfound, hsource⟩, target, hop.table, hleads, ?_, ?_⟩
  · have hearlier := Expansion.owner_lt_index expansion 0 1 Nat.zero_lt_one hmem
    omega
  · rw [← hindex]
    exact getElem?_tables h (List.mem_cons_of_mem _ (List.mem_map.2 ⟨hop, hmem, rfl⟩))
  · rw [joins_eq h, List.getElem?_map, hhop, htarget, ← hindex]
    rfl

/-- **The joins of a resource form a tree.** There are at most sixty-one tables, the
root first, under the aliases `t1`, `t2` and so on. Each join but none other leads to
the table that is mounted next, from an earlier one, over a visible column whose
relation leads there. Every column of a row belongs to one of the tables, and its
display names spell the foreign keys on the path to that table. -/
theorem joins_form_tree (hcompile : compile schema root = .ok resource) :
    (1 ≤ resource.tables.length ∧ resource.tables.length ≤ 61 ∧
      resource.tables[0]? = some { root with storageAlias := some "t1" } ∧
      ∀ i table, resource.tables[i]? = some table → table.storageAlias = some (tableAlias i)) ∧
    (resource.joins.length + 1 = resource.tables.length ∧
      ∀ k < resource.joins.length, ∃ j source, resource.Follows schema k j source) ∧
    ∀ column ∈ resource.columns, ∃ i path source left,
      resource.RelationPath schema i path ∧
      resource.tables[i]? = some left ∧ source ∈ left.visibleColumns ∧
      column.storageAlias = some (tableAlias i ++ "." ++ source.name) ∧
      column.displayName = source.displayName.behind (leadOf path) ∧
      column.displayName.primary =
        "_".intercalate ((path ++ [source]).map fun key => key.displayName.primary) := by
  obtain ⟨expansion, hexpands, hmounted, hfew⟩ := mounted_of_compile hcompile
  have htables := tables_eq hmounted
  have hlength : resource.tables.length = expansion.size + 1 := by simp [htables]
  have hjoins : resource.joins.length = expansion.size := by simp [joins_eq hmounted]
  have hfollows : ∀ k < expansion.size, ∃ hop, (expansion.hops 0 1)[k]? = some hop ∧
      hop.index = k + 1 ∧ resource.Follows schema k hop.owner hop.source := by
    intro k hk
    obtain ⟨hop, hhop⟩ : ∃ hop, (expansion.hops 0 1)[k]? = some hop :=
      ⟨_, List.getElem?_eq_getElem (by rwa [Expansion.length_hops])⟩
    exact ⟨hop, hhop, follows_hop hmounted hexpands hhop⟩
  refine ⟨⟨by omega, ?_, by rw [htables]; rfl, ?_⟩, ⟨by omega, ?_⟩, ?_⟩
  · rw [hlength]
    exact hfew
  · intro i table htable
    exact storageAlias_of_getElem? hmounted htable
  · intro k hk
    obtain ⟨hop, -, -, hstep⟩ := hfollows k (by omega)
    exact ⟨hop.owner, hop.source, hstep⟩
  · intro column hcolumn
    rw [columns, shape, hmounted] at hcolumn
    obtain ⟨site, hsite, rfl⟩ := Expansion.site_of_leaf hcolumn
    obtain ⟨hpath, found, hfound, hsource⟩ := hexpands.path_of_site (List.Subset.refl _) .root
      (fun hop hhop => by
        obtain ⟨k, hk⟩ := List.mem_iff_getElem?.1 hhop
        exact ⟨k, follows_hop hmounted hexpands hk⟩) hsite
    exact ⟨site.number, site.path, site.source, _, hpath, getElem?_tables hmounted hfound, hsource,
      rfl, rfl, leadOf_append_name site.path site.source⟩

end Resource

/-! ## Addresses reached twice -/

/-- Orders are shipped to an address, and their customers live at one. -/
def addressedShop : Catalog where
  databases := ["shop"]
  tables := [("shop", "addresses"), ("shop", "customers"), ("shop", "orders")]
  columns := [
    ⟨"shop", "addresses", "id", "int(11)", false, "PRI", false⟩,
    ⟨"shop", "addresses", "city", "varchar(64)", false, "", false⟩,
    ⟨"shop", "customers", "id", "int(11)", false, "PRI", false⟩,
    ⟨"shop", "customers", "address_id", "int(11)", false, "MUL", false⟩,
    ⟨"shop", "orders", "id", "int(11)", false, "PRI", false⟩,
    ⟨"shop", "orders", "customer_id", "int(11)", false, "MUL", false⟩,
    ⟨"shop", "orders", "shipping_id", "int(11)", false, "MUL", false⟩]
  links := [⟨⟨"shop", "customers", "address_id"⟩, ⟨"shop", "addresses", "id"⟩⟩,
    ⟨⟨"shop", "orders", "customer_id"⟩, ⟨"shop", "customers", "id"⟩⟩,
    ⟨⟨"shop", "orders", "shipping_id"⟩, ⟨"shop", "addresses", "id"⟩⟩]

def addressedTable : Table :=
  ((addressedShop.toSchema [] []).table? "shop.orders").getD default

def addressedOrder : Resource :=
  (Resource.compile (addressedShop.toSchema [] []) addressedTable).toOption.get (by decide +kernel)

/-- The two addresses of an order are two tables of its resource, each with its join. -/
theorem addresses_joined_twice :
    Resource.compile (addressedShop.toSchema [] []) addressedTable = .ok addressedOrder ∧
      addressedOrder.tables.map Table.name = ["orders", "customers", "addresses", "addresses"] ∧
      addressedOrder.joins.map Join.display =
        ["t1.customer_id = t2.id", "t2.address_id = t3.id", "t1.shipping_id = t4.id"] ∧
      ∀ k < addressedOrder.joins.length,
        ∃ j source, addressedOrder.Follows (addressedShop.toSchema [] []) k j source := by
  have hcompile : Resource.compile (addressedShop.toSchema [] []) addressedTable =
      .ok addressedOrder := eq_ok_get _
  refine ⟨hcompile, by decide +kernel, by decide +kernel, ?_⟩
  exact (Resource.joins_form_tree hcompile).2.1.2

end TableApi
