import TableApi.Proofs.Faithful
import TableApi.Proofs.Selecting
import TableApi.Proofs.Statements.Phrases

/-!
# Addresses of columns

The columns of a resource are those of all its tables, and the same table may be mounted
more than once. What tells two columns apart is the number of the table and the name, as
long as no table has two visible columns of one name (`Resource.ColumnsApart`).

A column is either followed or it is not. If it is, the resource has one join that leads
from its address (`joinFrom?`), and if it is not, a row has one cell for it (`cell?`): the
one that stands under the alias of the table and the name of the column.
-/

namespace TableApi

/-! ## Addresses of columns -/

/-- What tells a column from all others of a resource: the number of its table, and its
name. -/
def Site.address (site : Site) : Nat × String :=
  (site.number, site.source.name)

def Hop.address (hop : Hop) : Nat × String :=
  (hop.owner, hop.source.name)

/-- An address is written in one way. -/
theorem address_inj {number other : Nat} {name another : String}
    (h : tableAlias number ++ "." ++ name = tableAlias other ++ "." ++ another) :
    (number, name) = (other, another) := by
  have hdot : "." = String.singleton '.' := rfl
  have hcut := congrArg (Text.cutFirst '.') h
  rw [hdot, Text.cutFirst_append (dot_not_mem_tableAlias number),
    Text.cutFirst_append (dot_not_mem_tableAlias other)] at hcut
  obtain ⟨halias, hname⟩ := Prod.mk.inj (Option.some.inj hcut)
  exact Prod.ext (tableAlias_inj.1 halias) hname

namespace Expansion

/-- The columns that are not followed, in the order of a depth-first walk. -/
def plainSites (owner next : Nat) (path : List Column) : Expansion → List Site
  | nil => []
  | plain source rest => ⟨owner, path, source⟩ :: rest.plainSites owner next path
  | follow source _ _ inner rest =>
    inner.plainSites next (next + 1) (path ++ [source]) ++
      rest.plainSites owner (next + 1 + inner.size) path

variable (expansion : Expansion) (owner next : Nat) (path : List Column)

/-- They are the leaves of the tree. -/
theorem leaves_shape :
    (expansion.shape owner next path).leaves =
      (expansion.plainSites owner next path).map Site.column := by
  induction expansion generalizing owner next path with
  | nil => rfl
  | plain source rest ih => exact congrArg (List.cons _) (ih owner next path)
  | follow source table referenced inner rest ihInner ihRest =>
    rw [shape, Shape.leaves, plainSites, List.map_append, ihInner, ihRest]

/-- A column of an expansion is followed or it is not. -/
theorem addresses_perm :
    ((expansion.sites owner next path).map Site.address).Perm
      ((expansion.plainSites owner next path).map Site.address ++
        (expansion.hops owner next).map Hop.address) := by
  induction expansion generalizing owner next path with
  | nil => exact .nil
  | plain source rest ih => exact (ih owner next path).cons _
  | follow source table referenced inner rest ihInner ihRest =>
    refine List.perm_iff_count.2 fun address => ?_
    have hinner := (ihInner next (next + 1) (path ++ [source])).count_eq address
    have hrest := (ihRest owner (next + 1 + inner.size) path).count_eq address
    simp only [sites, plainSites, hops, List.map_append, List.map_cons, List.count_append,
      List.count_cons, Site.address, Hop.address] at hinner hrest ⊢
    omega

variable {expansion owner next path}

/-- A column belongs to the table at hand or to one of those below. -/
theorem number_of_site {site : Site} (h : site ∈ expansion.sites owner next path) :
    site.number = owner ∨ (next ≤ site.number ∧ site.number < next + expansion.size) := by
  induction expansion generalizing owner next path with
  | nil => cases h
  | plain source rest ih =>
    rcases List.mem_cons.1 h with rfl | h
    · exact .inl rfl
    · exact ih h
  | follow source table referenced inner rest ihInner ihRest =>
    rw [sites, List.cons_append, List.mem_cons, List.mem_append] at h
    rw [size]
    rcases h with rfl | h | h
    · exact .inl rfl
    · have := ihInner h
      omega
    · have := ihRest h
      omega

end Expansion

namespace Schema

variable {schema : Schema} {columns : List Column} {expansion : Expansion} {owner next : Nat}
  {path : List Column}

/-- A column of the table at hand is one of those that were expanded. -/
theorem Expands.mem_of_site (h : schema.Expands columns expansion) (howner : owner < next)
    {site : Site} (hsite : site ∈ expansion.sites owner next path) (hnumber : site.number = owner) :
    site.source ∈ columns := by
  induction h generalizing next with
  | nil => cases hsite
  | plain hlive hrest ih =>
    rcases List.mem_cons.1 hsite with rfl | hsite
    · exact List.mem_cons_self
    · exact List.mem_cons_of_mem _ (ih howner hsite)
  | follow hlive hinner hrest _ ihRest =>
    rw [Expansion.sites, List.cons_append, List.mem_cons, List.mem_append] at hsite
    rcases hsite with rfl | hsite | hsite
    · exact List.mem_cons_self
    · have := Expansion.number_of_site hsite
      omega
    · exact List.mem_cons_of_mem _ (ihRest (by omega) hsite)

/-- No two columns have one address, if the columns of each table differ in their names. -/
theorem Expands.nodup_addresses (h : schema.Expands columns expansion) (howner : owner < next)
    (hnames : (columns.map Column.name).Nodup)
    (hbelow : ∀ hop ∈ expansion.hops owner next,
      (hop.table.visibleColumns.map Column.name).Nodup) :
    ((expansion.sites owner next path).map Site.address).Nodup := by
  induction h generalizing owner next path with
  | nil => exact List.nodup_nil
  | @plain source rest others hlive hrest ih =>
    rw [List.map_cons, List.nodup_cons] at hnames
    rw [Expansion.sites, List.map_cons, List.nodup_cons]
    refine ⟨fun hmem => hnames.1 ?_, ih howner hnames.2 hbelow⟩
    obtain ⟨site, hsite, haddress⟩ := List.mem_map.1 hmem
    exact List.mem_map.2 ⟨_, hrest.mem_of_site howner hsite (congrArg Prod.fst haddress),
      congrArg Prod.snd haddress⟩
  | @follow source rest table referenced inner others hlive hinner hrest ihInner ihRest =>
    rw [List.map_cons, List.nodup_cons] at hnames
    simp only [Expansion.hops, List.cons_append, List.forall_mem_cons, List.forall_mem_append]
      at hbelow
    obtain ⟨htable, hbelowInner, hbelowRest⟩ := hbelow
    rw [Expansion.sites, List.cons_append, List.map_cons, List.map_append, List.nodup_cons,
      List.mem_append, List.nodup_append']
    refine ⟨?_, ihInner (Nat.lt_succ_self next) htable hbelowInner,
      ihRest (by omega) hnames.2 hbelowRest, ?_⟩
    · rintro (hmem | hmem)
      · obtain ⟨site, hsite, haddress⟩ := List.mem_map.1 hmem
        have hnumber : site.number = owner := congrArg Prod.fst haddress
        have := Expansion.number_of_site hsite
        omega
      · obtain ⟨site, hsite, haddress⟩ := List.mem_map.1 hmem
        refine hnames.1 (List.mem_map.2 ⟨site.source, ?_, congrArg Prod.snd haddress⟩)
        exact hrest.mem_of_site (by omega) hsite (congrArg Prod.fst haddress)
    · intro address hfirst hsecond
      obtain ⟨site, hsite, rfl⟩ := List.mem_map.1 hfirst
      obtain ⟨other, hother, haddress⟩ := List.mem_map.1 hsecond
      have hnumber : other.number = site.number := congrArg Prod.fst haddress
      have := Expansion.number_of_site hsite
      have := Expansion.number_of_site hother
      omega

end Schema

/-! ## What an address finds -/

namespace Resource

/-- The join that leads from a column of a table. -/
def joinFrom? (resource : Resource) (number : Nat) (name : String) : Option Join :=
  resource.joins.find? fun join => join.leftAlias = tableAlias number ∧ join.leftColumn = name

/-- The cell of a row for a column of a table. -/
def cell? (resource : Resource) (row : Row) (number : Nat) (name : String) : Option Json :=
  Entries.get? ((resource.columns.map fun column => column.storageAlias.getD "").zip row)
    (tableAlias number ++ "." ++ name)

/-- No table of the resource has two visible columns of one name. -/
def ColumnsApart (resource : Resource) : Prop :=
  ∀ table ∈ resource.tables, (table.visibleColumns.map Column.name).Nodup

instance (resource : Resource) : Decidable resource.ColumnsApart :=
  inferInstanceAs (Decidable (∀ table ∈ resource.tables, _))

variable {schema : Schema} {root : Table} {resource : Resource} {expansion : Expansion}

/-- Every column has an address of its own, whether it is followed or not. -/
theorem ColumnsApart.nodup_addresses (h : resource.ColumnsApart)
    (hmounted : resource.toMounted = expansion.mounted root 0 [])
    (hexpands : schema.Expands root.visibleColumns expansion) :
    ((expansion.plainSites 0 1 []).map Site.address ++
      (expansion.hops 0 1).map Hop.address).Nodup := by
  rw [ColumnsApart, tables_eq hmounted, List.forall_mem_cons, List.forall_mem_map] at h
  exact (expansion.addresses_perm 0 1 []).nodup_iff.1
    (hexpands.nodup_addresses Nat.zero_lt_one h.1 h.2)

/-- A foreign key that is followed is found by its address. -/
theorem ColumnsApart.joinFrom?_hop (h : resource.ColumnsApart)
    (hmounted : resource.toMounted = expansion.mounted root 0 [])
    (hexpands : schema.Expands root.visibleColumns expansion) {hop : Hop}
    (hhop : hop ∈ expansion.hops 0 1) :
    resource.joinFrom? hop.owner hop.source.name = some hop.join := by
  have hnodup := (List.nodup_append'.1 (h.nodup_addresses hmounted hexpands)).2.1
  rw [joinFrom?, joins_eq hmounted]
  have hsome : (((expansion.hops 0 1).map Hop.join).find? fun join =>
      join.leftAlias = tableAlias hop.owner ∧ join.leftColumn = hop.source.name).isSome := by
    refine List.find?_isSome.2 ⟨hop.join, List.mem_map_of_mem hhop, ?_⟩
    exact decide_eq_true ⟨rfl, rfl⟩
  obtain ⟨found, hfound⟩ := Option.isSome_iff_exists.1 hsome
  obtain ⟨other, hother, rfl⟩ := List.mem_map.1 (List.mem_of_find?_eq_some hfound)
  have hleads := List.find?_some hfound
  simp only [decide_eq_true_eq] at hleads
  obtain ⟨halias, hname⟩ := hleads
  have haddress : other.address = hop.address := Prod.ext (tableAlias_inj.1 halias) hname
  rw [hfound, List.inj_on_of_nodup_map hnodup hother hhop haddress]

/-- No join leads from a column that is not followed. -/
theorem ColumnsApart.joinFrom?_plain (h : resource.ColumnsApart)
    (hmounted : resource.toMounted = expansion.mounted root 0 [])
    (hexpands : schema.Expands root.visibleColumns expansion) {site : Site}
    (hsite : site ∈ expansion.plainSites 0 1 []) :
    resource.joinFrom? site.number site.source.name = none := by
  have hdisjoint := (List.nodup_append'.1 (h.nodup_addresses hmounted hexpands)).2.2
  rw [joinFrom?, joins_eq hmounted]
  refine List.find?_eq_none.2 fun join hjoin hleads => ?_
  obtain ⟨hop, hhop, rfl⟩ := List.mem_map.1 hjoin
  obtain ⟨halias, hname⟩ := of_decide_eq_true hleads
  have haddress : hop.address = site.address := Prod.ext (tableAlias_inj.1 halias) hname
  exact hdisjoint (List.mem_map_of_mem hsite) (haddress ▸ List.mem_map_of_mem hhop)

/-- The cell of a column that is not followed is the one at its place in the row. -/
theorem ColumnsApart.cell?_plain (h : resource.ColumnsApart)
    (hmounted : resource.toMounted = expansion.mounted root 0 [])
    (hexpands : schema.Expands root.visibleColumns expansion)
    (hshape : resource.shape = expansion.shape 0 1 []) {row : Row}
    (hwidth : row.length = resource.columns.length) {site : Site} {cell : Json}
    (hsite : (site, cell) ∈ (expansion.plainSites 0 1 []).zip row) :
    resource.cell? row site.number site.source.name = some cell := by
  have hnodup := (List.nodup_append'.1 (h.nodup_addresses hmounted hexpands)).1
  have haliases : (resource.columns.map fun column => column.storageAlias.getD "") =
      (expansion.plainSites 0 1 []).map fun site =>
        tableAlias site.number ++ "." ++ site.source.name := by
    rw [columns, hshape, Expansion.leaves_shape, List.map_map]
    rfl
  have hdistinct : (resource.columns.map fun column => column.storageAlias.getD "").Nodup := by
    rw [haliases]
    have hmap := hnodup.map_on (f := fun address : Nat × String =>
      tableAlias address.1 ++ "." ++ address.2) fun _ _ _ _ heq => address_inj heq
    rwa [List.map_map] at hmap
  refine Entries.get?_of_mem ?_ ?_
  · rwa [Entries.keys, List.map_fst_zip (by rw [List.length_map, hwidth])]
  · rw [haliases, List.zip_map_left]
    exact List.mem_map.2 ⟨(site, cell), hsite, rfl⟩

end Resource

end TableApi
