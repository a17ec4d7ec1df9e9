import TableApi.Config.Validate
import TableApi.Proofs.Packing.Filled

/-!
# Where supplied values go

A payload and its pack are nested alike: the object that a payload gives for a column
with a branch is packed into the object under the column's branch key (`Shape.Nests`). In
each such pair of objects every key names one column, and the value that a column reads
stands in the pack at that column and at no other (`Shape.Assigns`).

Compiling a resource tells the columns of a row apart by their names, but a column with a
branch is no column of a row. So that its names are no other column's is a condition here
(`Shape.LinksApart`). A column may well be named by two keys; it then reads the one that
`Name.keyIn?` finds, and the other is passed over.
-/

namespace TableApi

/-! ## The key that a column reads -/

namespace Name

/-- The key under which a payload has the value of a name: the primary name if that is a
key of the payload, or else the first alias that is one. -/
def keyIn? (name : Name) (payload : Entries Json) : Option String :=
  (name.primary :: name.aliases).find? payload.has

theorem valueIn?_eq_keyIn? (name : Name) (payload : Entries Json) :
    name.valueIn? payload = (name.keyIn? payload).bind payload.get? := by
  rw [valueIn?_eq, keyIn?]
  induction name.primary :: name.aliases with
  | nil => rfl
  | cons text rest ih =>
    rw [List.findSome?_cons, List.find?_cons]
    cases hvalue : payload.get? text with
    | none => simp [Entries.has, hvalue, ih]
    | some value => simp [Entries.has, hvalue]

/-- What stands under the key that a name reads is the value of the name. -/
theorem valueIn?_of_keyIn? {name : Name} {payload : Entries Json} {key : String} {value : Json}
    (hkey : name.keyIn? payload = some key) (hvalue : payload.get? key = some value) :
    name.valueIn? payload = some value := by
  rw [valueIn?_eq_keyIn?, hkey]
  exact hvalue

end Name

/-! ## Names of columns with a branch -/

namespace Shape

variable {shape inner rest : Shape} {column : Column} {placed : Placed}

/-- No column of the table shares a name with a column that opens a branch. -/
def LinksApartHere (shape : Shape) : Prop :=
  shape.nodes.Pairwise fun node other =>
    (node.2.isSome || other.2.isSome) = true →
      node.1.displayName.overlaps other.1.displayName = false

instance (shape : Shape) : Decidable shape.LinksApartHere :=
  inferInstanceAs (Decidable (List.Pairwise _ _))

/-- No column shares a name with a column of its table that opens a branch, neither in the
table nor below it. -/
structure LinksApart (shape : Shape) : Prop where
  own : shape.LinksApartHere
  below : ∀ place ∈ shape.places, place.2.LinksApartHere

instance (shape : Shape) : Decidable shape.LinksApart :=
  decidable_of_iff (shape.LinksApartHere ∧ ∀ place ∈ shape.places, place.2.LinksApartHere)
    ⟨fun h => ⟨h.1, h.2⟩, fun h => ⟨h.own, h.below⟩⟩

theorem columns_eq_nodes (shape : Shape) : shape.columns = shape.nodes.map Prod.fst := by
  induction shape with
  | nil => rfl
  | leaf column rest ih => simp [columns, nodes, ih]
  | branch column placed inner rest _ ih => simp [columns, nodes, ih]

theorem mem_columns_of_node {node : Node} (h : node ∈ shape.nodes) : node.1 ∈ shape.columns := by
  rw [columns_eq_nodes]
  exact List.mem_map_of_mem h

/-- A column without a branch is a column of a row. -/
theorem mem_leaves_of_node (h : (column, none) ∈ shape.nodes) : column ∈ shape.leaves := by
  induction shape with
  | nil => cases h
  | leaf other rest ih =>
    rcases List.mem_cons.1 h with heq | h
    · cases heq
      exact List.mem_cons_self
    · exact List.mem_cons_of_mem _ (ih h)
  | branch other placed inner rest _ ih =>
    rcases List.mem_cons.1 h with heq | h
    · cases heq
    · exact List.mem_append_right _ (ih h)

theorem leaves_sublist_of_place {place : Placed × Shape} (h : place ∈ shape.places) :
    place.2.leaves.Sublist shape.leaves := by
  induction shape with
  | nil => cases h
  | leaf column rest ih => exact (ih h).cons column
  | branch column placed inner rest ihInner ihRest =>
    rw [places, List.cons_append, List.mem_cons, List.mem_append] at h
    rcases h with rfl | h | h
    · exact List.sublist_append_left _ _
    · exact (ihInner h).trans (List.sublist_append_left _ _)
    · exact (ihRest h).trans (List.sublist_append_right _ _)

/-- Where the columns of a row do not share names and those with a branch do not either, no
text names two columns. -/
theorem LinksApartHere.unshared (h : shape.LinksApartHere)
    (hleaves : shape.leaves.Pairwise fun column other =>
      column.displayName.overlaps other.displayName = false) : shape.UnsharedHere := by
  induction shape with
  | nil => exact .nil
  | leaf column rest ih =>
    obtain ⟨hlinks, hrest⟩ := List.pairwise_cons.1 h
    obtain ⟨hplain, hleaves⟩ := List.pairwise_cons.1 hleaves
    refine List.pairwise_cons.2 ⟨?_, ih hrest hleaves⟩
    intro other hother
    rw [columns_eq_nodes] at hother
    obtain ⟨⟨_, opened⟩, hnode, rfl⟩ := List.mem_map.1 hother
    cases opened with
    | none => exact hplain _ (mem_leaves_of_node hnode)
    | some place => exact hlinks _ hnode rfl
  | branch column placed inner rest _ ih =>
    obtain ⟨hlinks, hrest⟩ := List.pairwise_cons.1 h
    refine List.pairwise_cons.2 ⟨?_, ih hrest (List.pairwise_append.1 hleaves).2.1⟩
    intro other hother
    rw [columns_eq_nodes] at hother
    obtain ⟨node, hnode, rfl⟩ := List.mem_map.1 hother
    exact hlinks node hnode rfl

theorem LinksApart.unshared (h : shape.LinksApart)
    (hleaves : shape.leaves.Pairwise fun column other =>
      column.displayName.overlaps other.displayName = false) : shape.Unshared :=
  ⟨h.own.unshared hleaves, fun place hplace =>
    (h.below place hplace).unshared (hleaves.sublist (leaves_sublist_of_place hplace))⟩

end Shape

/-- Columns of which no first one is found that shares a name with a later one. -/
theorem pairwise_of_sharedName? {columns : List Column} (h : sharedName? columns = none) :
    columns.Pairwise fun column other =>
      column.displayName.overlaps other.displayName = false := by
  induction columns with
  | nil => exact .nil
  | cons column rest ih =>
    rw [sharedName?] at h
    split at h
    · cases h
    · next hapart =>
      refine List.pairwise_cons.2 ⟨?_, ih h⟩
      intro other hother
      simpa using List.any_eq_false.1 (Bool.eq_false_iff.2 hapart) other hother

/-- The columns of a row of a compiled resource do not share names. -/
theorem Resource.leaves_apart {schema : Schema} {root : Table} {resource : Resource}
    (hcompile : compile schema root = .ok resource) :
    resource.shape.leaves.Pairwise fun column other =>
      column.displayName.overlaps other.displayName = false :=
  pairwise_of_sharedName? (compiled hcompile).2.2

/-! ## Levels of a payload -/

namespace Shape

variable {shape table : Shape} {idle : Json → Prop} {payload pack given made : Entries Json}

/-- Two objects at one place of a payload and its pack, with the table that they belong to:
the payload and the pack themselves, or the object that is given for a column with a branch
and the object under the column's branch key. -/
inductive Nests (shape : Shape) (payload pack : Entries Json) :
    Shape → Entries Json → Entries Json → Prop
  | top : Nests shape payload pack shape payload pack
  | inside {table given made column placed inner key nested packed}
      (hout : Nests shape payload pack table given made)
      (hnode : (column, some (placed, inner)) ∈ table.nodes)
      (hkey : column.displayName.keyIn? given = some key)
      (hnested : given.get? key = some (.obj nested))
      (hpacked : made.get? column.branchKey = some (.obj packed)) :
      Nests shape payload pack inner nested packed

/-- Each key of an object names one column of the table. Each column that keys name takes
the value of one of them, which stands in the pack at that column. Whatever stands at
another column was not given. -/
structure Assigns (idle : Json → Prop) (shape : Shape) (given made : Entries Json) : Prop where
  named : ∀ key ∈ given.keys, ∃! column,
    column ∈ shape.columns ∧ column.displayName.matchesText key = true
  kept : ∀ node ∈ shape.nodes, ∀ key value, node.1.displayName.keyIn? given = some key →
    given.get? key = some value → StandsAt made node value
  idle : ∀ node ∈ shape.nodes, node.1.displayName.keyIn? given = none →
    ∀ key ∈ Node.keys node, ∀ found, made.get? key = some found → idle found

theorem Filled.at_node (h : shape.Filled idle payload pack) {node : Node}
    (hnode : node ∈ shape.nodes) : FilledAt idle payload pack node := by
  induction shape with
  | nil => cases hnode
  | leaf column rest ih =>
    rcases List.mem_cons.1 hnode with rfl | hnode
    · exact h.1
    · exact ih h.2 hnode
  | branch column placed inner rest _ ih =>
    rcases List.mem_cons.1 hnode with rfl | hnode
    · exact h.1
    · exact ih h.2.2 hnode

/-- Below a column with a branch, too, the keys are known and the pack is filled. -/
theorem Filled.inside {column : Column} {placed : Placed} {inner : Shape}
    {nested packed : Entries Json} (h : shape.Filled idle payload pack)
    (hnode : (column, some (placed, inner)) ∈ shape.nodes)
    (hnested : column.displayName.valueIn? payload = some (.obj nested))
    (hpacked : pack.get? column.branchKey = some (.obj packed)) :
    inner.Knows nested ∧ inner.Filled idle nested packed := by
  induction shape with
  | nil => cases hnode
  | leaf other rest ih =>
    rcases List.mem_cons.1 hnode with heq | hnode
    · cases heq
    · exact ih h.2 hnode
  | branch other found below rest _ ih =>
    rcases List.mem_cons.1 hnode with heq | hnode
    · cases heq
      exact h.2.1 nested packed hnested hpacked
    · exact ih h.2.2 hnode

theorem Filled.assigns (hfilled : shape.Filled idle given made) (hknows : shape.Knows given)
    (hown : shape.UnsharedHere) : shape.Assigns idle given made := by
  refine ⟨?_, ?_, ?_⟩
  · intro key hkey
    obtain ⟨column, hcolumn, hmatches⟩ := hknows key hkey
    refine ⟨column, ⟨hcolumn, hmatches⟩, ?_⟩
    rintro other ⟨hother, hmatches'⟩
    exact hown.eq_of_matches hother hcolumn hmatches' hmatches
  · intro node hnode key value hkey hvalue
    exact (hfilled.at_node hnode).given value (Name.valueIn?_of_keyIn? hkey hvalue)
  · intro node hnode hkey
    apply (hfilled.at_node hnode).idle
    intro value hvalue
    rw [Name.valueIn?_eq_keyIn?, hkey] at hvalue
    cases hvalue

/-- Where a pack is filled with a payload whose keys are known, so is every object in it
with the object of the payload at its place. -/
theorem Nests.assigns (hlevel : shape.Nests payload pack table given made)
    (hunshared : shape.Unshared) (hknows : shape.Knows payload)
    (hfilled : shape.Filled idle payload pack) : table.Assigns idle given made := by
  suffices h : (table.UnsharedHere ∧ ∀ place ∈ table.places, place.2.UnsharedHere) ∧
      table.Knows given ∧ table.Filled idle given made from
    h.2.2.assigns h.2.1 h.1.1
  induction hlevel with
  | top => exact ⟨⟨hunshared.own, hunshared.below⟩, hknows, hfilled⟩
  | inside _ hnode hkey hnested hpacked ih =>
    obtain ⟨⟨-, hbelow⟩, -, hfilled⟩ := ih
    have hplace := mem_places_of_node hnode
    refine ⟨⟨hbelow _ hplace, fun place h => hbelow place (places_subset hplace h)⟩, ?_⟩
    exact hfilled.inside hnode (Name.valueIn?_of_keyIn? hkey hnested) hpacked

end Shape

/-- **Supplied values are kept.** Where no column shares a name with a column that opens a
branch, an accepted body is taken over object by object. In each object every key names
exactly one column, and each column that is named takes exactly one value, that of its
primary name or else of its first alias, which then stands in the pack at this column and
no other. Renaming adds nothing to that, and a new row adds identifiers only. -/
theorem Resource.supplied_values_kept {schema : Schema} {root : Table} {resource : Resource}
    (hcompile : compile schema root = .ok resource) (hlinks : resource.shape.LinksApart)
    {payload pack : Entries Json} :
    (resource.packOf payload = .ok pack →
      ∀ {table given made}, resource.shape.Nests payload pack table given made →
        table.Assigns (fun _ => False) given made) ∧
    (∀ {σ : Type} {draw : IdGenerator → StateM σ Json} {before after : σ},
      outcome (resource.newPack draw payload) before = (.ok pack, after) →
      ∀ {table given made}, resource.shape.Nests payload pack table given made →
        table.Assigns (OnlyDrawn draw) given made) := by
  have hunshared := hlinks.unshared (leaves_apart hcompile)
  constructor
  · intro hpack table given made hlevel
    obtain ⟨_, hknown, hpack⟩ := ok_of_bind hpack
    exact hlevel.assigns hunshared (Shape.checkKeys_ok_iff.1 hknown)
      (Shape.filled_packOf (keyed hcompile) hpack)
  · intro σ draw before after hpack table given made hlevel
    obtain ⟨_, checked, hchecked, hpack⟩ := outcome_bind_ok.1 hpack
    obtain ⟨hknown, rfl⟩ := Prod.mk.inj hchecked
    exact hlevel.assigns hunshared (Shape.checkKeys_ok_iff.1 hknown)
      (Shape.filled_newPack (keyed hcompile) hunshared.below hpack)

/-! ## Orders with several names for one thing -/

/-- The town to which an order is shipped, in the order in few words. -/
def townInFewWords : Entries Json :=
  [("shipping_id_town", .str "Oslo")]

/-- The order in few words is taken over, and so is the town in it. -/
theorem town_kept :
    Resource.compile aliasedShop aliasedTable = .ok aliasedOrder ∧
      aliasedOrder.shape.LinksApart ∧
      ∃ pack renamed, aliasedOrder.packOf orderInFewWords = .ok renamed ∧
        aliasedOrder.shape.Assigns (fun _ => False) orderInFewWords renamed ∧
        outcome (aliasedOrder.newPack counting orderInFewWords) 1000 = (.ok pack, 1003) ∧
        ∃ table made, aliasedOrder.shape.Nests orderInFewWords pack table townInFewWords made ∧
          table.Assigns (OnlyDrawn counting) townInFewWords made := by
  have hcompile : Resource.compile aliasedShop aliasedTable = .ok aliasedOrder := eq_ok_get _
  have hlinks : aliasedOrder.shape.LinksApart := by decide +kernel
  let renamed : Entries Json := [
    ("shop.orders.customer_id_branch", .obj [("shop.customers.address_id", .int 5)]),
    ("shop.orders.shipping_id_branch", .obj [("shop.addresses.city", .str "Oslo")])]
  let made : Entries Json := [("shop.addresses.id", .int 1002), ("shop.addresses.city", .str "Oslo")]
  let pack : Entries Json := [("shop.orders.id", .int 1000),
    ("shop.orders.customer_id_branch", .obj [("shop.customers.id", .int 1001),
      ("shop.customers.address_id", .int 5)]),
    ("shop.orders.shipping_id_branch", .obj made)]
  have hrenamed : aliasedOrder.packOf orderInFewWords = .ok renamed := by decide +kernel
  have hpack : outcome (aliasedOrder.newPack counting orderInFewWords) 1000 = (.ok pack, 1003) := by
    decide +kernel
  have hshipping : ∃ node ∈ aliasedOrder.shape.nodes, node.2.isSome = true ∧
      node.1.displayName.keyIn? orderInFewWords = some "shipping_id" ∧
      node.1.branchKey = "shop.orders.shipping_id_branch" := by decide +kernel
  obtain ⟨⟨column, opened⟩, hnode, hopened, hkey, hbranch⟩ := hshipping
  obtain ⟨⟨placed, inner⟩, rfl⟩ := Option.isSome_iff_exists.1 hopened
  have hpacked : pack.get? column.branchKey = some (.obj made) := by
    rw [hbranch]
    decide
  have hlevel : aliasedOrder.shape.Nests orderInFewWords pack inner townInFewWords made :=
    .inside .top hnode hkey rfl hpacked
  exact ⟨hcompile, hlinks, pack, renamed, hrenamed,
    (Resource.supplied_values_kept hcompile hlinks).1 hrenamed .top, hpack, inner, made, hlevel,
    (Resource.supplied_values_kept hcompile hlinks).2 hpack hlevel⟩

/-- Settings under which a column with a branch and a plain column are both a buyer, and a
number can be abbreviated. -/
def buyerSettings : Settings where
  connection := { provider := "mysql", host := some "localhost", username := some "root" }
  aliases := [("shop.orders.customer_id", ["buyer"]), ("shop.orders.number", ["no"])]

def buyerCatalog : Catalog where
  databases := ["shop"]
  tables := [("shop", "customers"), ("shop", "orders")]
  columns := [
    ⟨"shop", "customers", "id", "int(11)", false, "PRI", false⟩,
    ⟨"shop", "orders", "id", "int(11)", false, "PRI", false⟩,
    ⟨"shop", "orders", "customer_id", "int(11)", false, "MUL", false⟩,
    ⟨"shop", "orders", "buyer", "varchar(64)", false, "", false⟩,
    ⟨"shop", "orders", "number", "int(11)", false, "", false⟩]
  links := [⟨⟨"shop", "orders", "customer_id"⟩, ⟨"shop", "customers", "id"⟩⟩]

def buyerSchema : Schema :=
  buyerCatalog.toSchema buyerSettings.policies buyerSettings.aliases

def buyerTable : Table :=
  (buyerSchema.table? "shop.orders").getD default

def buyerOrder : Resource :=
  (Resource.compile buyerSchema buyerTable).toOption.get (by decide +kernel)

/-- An order with one buyer and two numbers. -/
def orderWithTwoNumbers : Entries Json :=
  [("id", .int 1), ("buyer", .int 3), ("number", .int 5), ("no", .int 6)]

/-- The order is accepted, although its two numbers are for one column, of which one is not
in the pack, and its buyer is for two columns, at both of which it stands. -/
theorem numbers_and_buyers_confused :
    buyerSettings.validate = .ok () ∧ Resource.compile buyerSchema buyerTable = .ok buyerOrder ∧
      ∃ pack, outcome (buyerOrder.newPack counting orderWithTwoNumbers) 1000 = (.ok pack, 1000) ∧
        buyerOrder.packOf orderWithTwoNumbers = .ok pack ∧
        (∃ column ∈ buyerOrder.shape.columns, column.displayName.matchesText "number" = true ∧
          column.displayName.matchesText "no" = true ∧
          pack.get? column.qualifiedName = some (.int 5)) ∧
        (∀ entry ∈ pack, entry.2 ≠ .int 6) ∧
        ∃ column ∈ buyerOrder.shape.columns, ∃ other ∈ buyerOrder.shape.columns,
          column.name ≠ other.name ∧ column.displayName.matchesText "buyer" = true ∧
          other.displayName.matchesText "buyer" = true ∧
          pack.get? column.qualifiedName = some (.int 3) ∧
          pack.get? other.qualifiedName = some (.int 3) := by
  let pack : Entries Json := [("shop.orders.id", .int 1), ("shop.orders.customer_id", .int 3),
    ("shop.orders.buyer", .int 3), ("shop.orders.number", .int 5)]
  exact ⟨by decide +kernel, eq_ok_get _, pack, by decide +kernel, by decide +kernel,
    by decide +kernel, by decide +kernel, by decide +kernel⟩

end TableApi
