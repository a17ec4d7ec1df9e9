import TableApi.Proofs.Deleting.Reach
import TableApi.Proofs.Identifiers.Ranges
import TableApi.Proofs.Inserting
import TableApi.Proofs.Introspection.Validity
import TableApi.Proofs.Packing.Drawn

/-!
# Identifiers and the types of their columns

A table has one generator, and introspection makes it for the type of the first primary-key
column. It serves every column of the table that takes an identifier: all parts of a
composite key, and the column that a foreign key references, even where this is no primary
key. What it makes suits such a column, whatever is drawn, exactly when the range of the
first key column's type is within that of the column's own (`Resource.generated_suit_iff`).

`sku_numbered` shows where this fails: items are referenced by a text and keyed by integers.
-/

namespace TableApi

/-- The type by which the identifiers of a table are made: that of the first primary-key
column. A table without one goes by no type at all. -/
def Table.keyTag (table : Table) : String :=
  ((table.columns.find? Column.isPrimary).map Column.typeTag).getD ""

/-- Whether all that is made for a site suits the type of its column. -/
def DrawSite.fits (site : DrawSite) : Bool :=
  (IdGenerator.forType site.table.keyTag).fits (.forType site.column.typeTag)

/-- What stands in a pack at a site could have been made for the type of its column. -/
def DrawSite.Suited (site : DrawSite) (pack : Entries Json) : Prop :=
  ∃ value, site.value? pack = some value ∧ (IdGenerator.forType site.column.typeTag).CanMake value

/-! ## Tables of a catalog -/

/-- Whether a column belongs to the primary key, and its type. -/
def Column.keyView (column : Column) : Bool × String :=
  (column.isPrimary, column.typeTag)

namespace Table

theorem keyTag_congr {table other : Table}
    (h : table.columns.map Column.keyView = other.columns.map Column.keyView) :
    table.keyTag = other.keyTag := by
  have hview : ∀ columns : List Column, (columns.find? Column.isPrimary).map Column.typeTag =
      ((columns.map Column.keyView).find? Prod.fst).map Prod.snd := by
    intro columns
    rw [List.find?_map, Option.map_map]
    rfl
  rw [keyTag, keyTag, hview, hview, h]

/-- The identifiers of a table are made for its key's type. -/
theorem ids_ofColumns (database name : String) (columns : List Column) :
    (ofColumns database name columns).ids =
      .forType (ofColumns database name columns).keyTag := by
  simp only [ofColumns, keyTag]
  cases columns.find? Column.isPrimary with
  | none => decide +kernel
  | some key => rfl

end Table

/-- Every table makes identifiers for the type of its first primary-key column. -/
def Schema.MadeForKeys (schema : Schema) : Prop :=
  schema.Holds fun _ table => table.ids = .forType table.keyTag

namespace Schema

variable {schema : Schema}

/-- A change of columns that keeps the primary key and the types. -/
theorem MadeForKeys.updateColumn (h : schema.MadeForKeys) {ref : ColumnRef}
    {change : Column → Column} (hchange : ∀ column, (change column).keyView = column.keyView) :
    (schema.updateColumn ref change).MadeForKeys := by
  refine Holds.updateTable h fun table htable _ => ?_
  show table.ids = _
  rw [htable]
  exact congrArg IdGenerator.forType (Table.keyTag_congr (map_updateFirst hchange _).symm)

theorem MadeForKeys.link (h : schema.MadeForKeys) (entry : CatalogLink) :
    (schema.link entry).MadeForKeys := by
  unfold Schema.link
  split
  · exact h
  · refine h.updateColumn fun column => ?_
    unfold Column.keyView Column.isPrimary Column.references
    cases column.keyRole <;> rfl

theorem MadeForKeys.addAliases (h : schema.MadeForKeys) (path : String) (aliases : List String) :
    (schema.addAliases path aliases).MadeForKeys := by
  unfold Schema.addAliases
  split
  · exact Holds.updateTable h fun _ htable _ => htable
  · exact h.updateColumn fun _ => rfl
  · exact h

end Schema

/-- Introspection gives every table the generator that suits its first primary-key column. -/
theorem Catalog.madeForKeys_toSchema (catalog : Catalog) (policies : List AccessPolicy)
    (aliases : Entries (List String)) : (catalog.toSchema policies aliases).MadeForKeys := by
  refine catalog.toSchema_induction policies (catalog.holds_bare policies ?_) ?_ ?_
  · intro database name table htable
    unfold toTable? at htable
    simp only at htable
    split at htable
    · cases htable
    · cases htable
      exact Table.ids_ofColumns database name _
  · intro schema entry h
    exact Schema.MadeForKeys.link h entry
  · intro schema entry _ h
    exact Schema.MadeForKeys.addAliases h entry.1 entry.2

namespace Resource

variable {schema : Schema} {root : Table} {resource : Resource}

/-- A table that is mounted keeps its columns and its generator. -/
theorem madeForKey_of_mounts {table : Table} {mounted : Mounted} (h : schema.Mounts table mounted)
    (hids : table.ids = .forType table.keyTag) :
    mounted.root.table.ids = .forType mounted.root.table.keyTag := by
  obtain ⟨hops, path, index, lead, h⟩ := h
  obtain ⟨-, -, hops', grown, -, -, rfl⟩ := Schema.mountTable_ok h
  exact hids

/-- The tables of a resource make identifiers for the types of their keys. -/
theorem madeForKey (hmade : schema.MadeForKeys) (hroot : root ∈ schema.tables)
    (hcompile : compile schema root = .ok resource) :
    resource.root.table.ids = .forType resource.root.table.keyTag ∧
      ∀ place ∈ resource.shape.places, place.1.table.ids = .forType place.1.table.keyTag := by
  have hmade : ∀ table ∈ schema.tables, table.ids = .forType table.keyTag := by
    intro table htable
    obtain ⟨database, hdatabase, htable⟩ := List.mem_flatMap.1 htable
    exact hmade database hdatabase table htable
  have hmount := mountTable_of_compile hcompile
  constructor
  · exact madeForKey_of_mounts ⟨_, _, _, _, hmount⟩ (hmade root hroot)
  · intro place hplace
    obtain ⟨found, below, path, hfound, hbelow, hplaced, -⟩ :=
      Schema.mounts_of_place hmount hplace
    rw [hplaced]
    exact madeForKey_of_mounts hbelow (hmade found (Schema.mem_tables_of_table? hfound))

end Resource

/-! ## Sources of identifiers -/

section Sources

variable {σ : Type}

/-- A source yields what generators can produce, for those that can produce anything. -/
def Generates (draw : IdGenerator → StateM σ Json) : Prop :=
  ∀ (ids : IdGenerator) (state : σ), (∃ value, ids.CanMake value) →
    ids.CanMake ((draw ids).run state).1

/-- The source that makes every identifier of the same random bits. -/
def steady (bits : BitVec 128) (ids : IdGenerator) : StateM Unit Json :=
  pure ((ids.make? (Uuid.ofRandom bits)).getD .null)

theorem steady_eq {bits : BitVec 128} {ids : IdGenerator} {value : Json}
    (h : ids.make? (Uuid.ofRandom bits) = some value) (state : Unit) :
    ((steady bits ids).run state).1 = value := by
  show (ids.make? (Uuid.ofRandom bits)).getD .null = value
  rw [h, Option.getD_some]

/-- A generator that makes something of some bits makes something of all bits. -/
theorem generates_steady (bits : BitVec 128) : Generates (steady bits) := by
  rintro ids state ⟨value, other, hmake⟩
  have hsome : ∃ made, ids.make? (Uuid.ofRandom bits) = some made := by
    cases ids with
    | uuid | shortUuid | upTo => exact ⟨_, rfl⟩
    | supplied => cases hmake
  obtain ⟨made, hmade⟩ := hsome
  exact ⟨bits, (steady_eq hmade state).symm ▸ hmade⟩

variable {draw : IdGenerator → StateM σ Json}

/-- For a column type something is generated, and it is no object. -/
theorem Generates.canMake (h : Generates draw) (typeTag : String) (state : σ) :
    (IdGenerator.forType typeTag).CanMake ((draw (.forType typeTag)).run state).1 := by
  obtain ⟨value, hmake, -⟩ := IdGenerator.exists_make?_forType typeTag (Uuid.ofRandom 0)
  exact h _ state ⟨value, 0, hmake⟩

theorem Generates.plain (h : Generates draw) (typeTag : String) (state : σ) :
    ((draw (.forType typeTag)).run state).1.members? = none := by
  obtain ⟨bits, hmake⟩ := h.canMake typeTag state
  obtain ⟨value, hvalue, hplain⟩ := IdGenerator.exists_make?_forType typeTag (Uuid.ofRandom bits)
  obtain rfl := Option.some.inj (hvalue.symm.trans hmake)
  exact hplain

end Sources

/-! ## Resources of a catalog -/

namespace Resource

variable {catalog : Catalog} {policies : List AccessPolicy} {aliases : Entries (List String)}
  {root : Table} {resource : Resource} {body : Entries Json} {site : DrawSite} {σ : Type}
  {draw : IdGenerator → StateM σ Json}
  (hroot : root ∈ (catalog.toSchema policies aliases).tables)
  (hcompile : compile (catalog.toSchema policies aliases) root = .ok resource)

include hroot hcompile

/-- At every site identifiers are made for the type of the key of the site's table. -/
theorem ids_of_mem_drawSites (hsite : site ∈ resource.drawSites body) :
    site.table.ids = .forType site.table.keyTag := by
  obtain ⟨hown, hplaces⟩ :=
    madeForKey (catalog.madeForKeys_toSchema policies aliases) hroot hcompile
  rcases Shape.table_of_mem_drawSites hsite with htable | ⟨place, hplace, htable⟩
  · rw [htable, hown]
  · rw [htable, hplaces place hplace]

theorem plainBelow_of_generates (hdraw : Generates draw) : resource.shape.PlainBelow draw := by
  obtain ⟨-, hplaces⟩ := madeForKey (catalog.madeForKeys_toSchema policies aliases) hroot hcompile
  intro place hplace state
  rw [hplaces place hplace]
  exact hdraw.plain _ state

/-- What stands at a site was drawn, in some state, for the type of the key. -/
theorem exists_drawn (hdraw : Generates draw) {pack : Entries Json} {before after : σ}
    (haccepted : outcome (resource.newPack draw body) before = (.ok pack, after))
    (hsite : site ∈ resource.drawSites body) :
    ∃ state, site.value? pack = some ((draw (.forType site.table.keyTag)).run state).1 := by
  have hplain := plainBelow_of_generates hroot hcompile hdraw
  obtain ⟨entries, hdraws, hvalues, hentries⟩ := draws_newPack hcompile hplain haccepted
  obtain ⟨value, hvalue⟩ := hvalues site hsite
  obtain ⟨state, hstate⟩ := hdraws.exists_run ((hentries _ value).2 ⟨site, hsite, rfl, hvalue⟩)
  rw [ids_of_mem_drawSites hroot hcompile hsite] at hstate
  exact ⟨state, hstate ▸ hvalue⟩

/-- **When generated values suit their columns.** Of a resource over the schema of a catalog,
let a body be accepted. What is generated for it stands at its sites, made for the types of
the first key columns of their tables. Whatever is drawn it suits the columns there, in that
it could have been made for their own types, exactly when at each site the range of the one
type is within that of the other. -/
theorem generated_suit_iff (hdraw : Generates draw) {pack : Entries Json} {before after : σ}
    (haccepted : outcome (resource.newPack draw body) before = (.ok pack, after)) :
    (∃ entries, Draws draw before entries after ∧
      (∀ site ∈ resource.drawSites body, ∃ value, site.value? pack = some value) ∧
      ∀ ids value, (ids, value) ∈ entries ↔ ∃ site ∈ resource.drawSites body,
        ids = .forType site.table.keyTag ∧ site.value? pack = some value) ∧
    ((∀ (τ : Type) (draw' : IdGenerator → StateM τ Json), Generates draw' →
        ∀ start pack' final, outcome (resource.newPack draw' body) start = (.ok pack', final) →
          ∀ site ∈ resource.drawSites body, site.Suited pack') ↔
      ∀ site ∈ resource.drawSites body, site.fits = true) := by
  have hplain := plainBelow_of_generates hroot hcompile hdraw
  refine ⟨?_, ?_, ?_⟩
  · obtain ⟨entries, hdraws, hvalues, hentries⟩ := draws_newPack hcompile hplain haccepted
    refine ⟨entries, hdraws, hvalues, fun ids value => (hentries ids value).trans ?_⟩
    refine exists_congr fun site => and_congr_right fun hsite => and_congr_left fun _ => ?_
    rw [ids_of_mem_drawSites hroot hcompile hsite, eq_comm]
  · intro hsuits site hsite
    rw [DrawSite.fits, IdGenerator.forType_fits_iff]
    rintro value ⟨bits, hmake⟩
    -- All that is drawn is made of the bits that make this value.
    have hsteady := generates_steady bits
    obtain ⟨pack', final, hrun⟩ :=
      exists_newPack hplain (plainBelow_of_generates hroot hcompile hsteady) haccepted ()
    obtain ⟨state, hvalue⟩ := exists_drawn hroot hcompile hsteady hrun hsite
    rw [steady_eq hmake] at hvalue
    obtain ⟨found, hfound, hcan⟩ := hsuits Unit _ hsteady () pack' final hrun site hsite
    obtain rfl : value = found := Option.some.inj (hvalue.symm.trans hfound)
    exact hcan
  · intro hfits τ draw' hdraw' start pack' final hrun site hsite
    obtain ⟨state, hvalue⟩ := exists_drawn hroot hcompile hdraw' hrun hsite
    have hcan := hdraw'.canMake site.table.keyTag state
    exact ⟨_, hvalue, (IdGenerator.forType_fits_iff _ _).1 (hfits site hsite) _ hcan⟩

end Resource

/-! ## A customer and an item that are numbered -/

/-- Whatever number a customer gets whose order is taken, the customer's column can hold it. -/
theorem customer_number_suits :
    orderTable ∈ (customersArePersons.toSchema [] []).tables ∧
      Resource.compile (customersArePersons.toSchema [] []) orderTable = .ok orderResource ∧
      (∃ pack, outcome (orderResource.newPack (steady 0) orderWithoutPerson) () = (.ok pack, ())) ∧
      (orderResource.drawSites orderWithoutPerson).map
          (fun site => (site.path, site.column.qualifiedName)) =
        [(["shop.orders.customer_id_branch"], "shop.customers.id")] ∧
      ∀ (τ : Type) (draw : IdGenerator → StateM τ Json), Generates draw →
        ∀ start pack final,
          outcome (orderResource.newPack draw orderWithoutPerson) start = (.ok pack, final) →
          ∀ site ∈ orderResource.drawSites orderWithoutPerson, site.Suited pack := by
  have hroot : orderTable ∈ (customersArePersons.toSchema [] []).tables := by decide +kernel
  let pack : Entries Json := [("shop.orders.id", .int 1), ("shop.orders.customer_id_branch",
    .obj [("shop.customers.id", .int 65539), ("shop.customers.name", .str "Ann")])]
  have hpack : outcome (orderResource.newPack (steady 0) orderWithoutPerson) () = (.ok pack, ()) := by
    decide +kernel
  refine ⟨hroot, compile_orderTable, ⟨pack, hpack⟩, by decide +kernel, ?_⟩
  exact (Resource.generated_suit_iff hroot compile_orderTable (generates_steady 0) hpack).2.2
    (by decide +kernel)

/-- A note about a new item. -/
def noteOnNewItem : Entries Json :=
  [("id", .int 1), ("item_sku", .obj [])]

/-- The item gets a number for its text, since the first column of its key is a number. -/
theorem sku_numbered :
    noteTable [] ∈ (annotatedShop.toSchema [] []).tables ∧
      Resource.compile (annotatedShop.toSchema [] []) (noteTable []) = .ok noteResource ∧
      Generates (steady 0) ∧
      ∃ pack, outcome (noteResource.newPack (steady 0) noteOnNewItem) () = (.ok pack, ()) ∧
        ∃ site ∈ noteResource.drawSites noteOnNewItem,
          site.column.qualifiedName = "shop.items.sku" ∧ site.column.typeTag = "varchar(16)" ∧
          site.value? pack = some (.int 65539) ∧ ¬ site.Suited pack := by
  let pack : Entries Json := [("shop.notes.id", .int 1), ("shop.notes.item_sku_branch",
    .obj [("shop.items.sku", .int 65539), ("shop.items.order_no", .int 65539),
      ("shop.items.line", .int 65539)])]
  have hpack : outcome (noteResource.newPack (steady 0) noteOnNewItem) () = (.ok pack, ()) := by
    decide +kernel
  have hsite : ∃ site ∈ noteResource.drawSites noteOnNewItem,
      site.column.qualifiedName = "shop.items.sku" ∧ site.column.typeTag = "varchar(16)" ∧
        site.value? pack = some (.int 65539) := by
    decide +kernel
  obtain ⟨site, hmem, hname, htype, hvalue⟩ := hsite
  refine ⟨by decide +kernel, compile_noteTable, generates_steady 0, pack, hpack, site, hmem, hname,
    htype, hvalue, ?_⟩
  -- All that is made for the type of the column is text.
  rintro ⟨value, hfound, hcan⟩
  obtain rfl := Option.some.inj (hvalue.symm.trans hfound)
  have hlength : (IdGenerator.forType site.column.typeTag).textLength? = some 16 := by
    rw [htype]
    decide +kernel
  obtain ⟨text, htext, -⟩ := IdGenerator.length_of_canMake hlength hcan
  cases htext

end TableApi
