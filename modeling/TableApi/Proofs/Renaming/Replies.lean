import TableApi.Proofs.Inserting
import TableApi.Proofs.JoinTree
import TableApi.Proofs.Renaming

/-!
# A reply can be sent again

Whatever a client gives for a new row, by aliases or with keys left out, the pack that is
made of it has a value for every column. So the reply, which is the pack under display
names, is a payload that has every column, and the two say the same
(`Shape.renames_newPack`). Sent back, the reply draws no identifier and gives the same
pack again: `reply_fixed_point`.
-/

namespace TableApi

section

variable {σ : Type} {draw : IdGenerator → StateM σ Json}

/-- A link is no object. -/
theorem Column.plain_of_link {column : Column} {payload : Entries Json} {value : Json}
    (h : column.givenIn payload = .link value) : value.members? = none := by
  have hvalue := Column.valueIn?_of_link h
  cases value with
  | obj members =>
    rw [Column.givenIn_of_object hvalue] at h
    cases h
  | _ => rfl

/-- The pack of a new row is the pack of a payload that has every column. -/
theorem Shape.renames_newPack {shape : Shape} {ids : IdGenerator} {payload pack : Entries Json}
    {before after : σ}
    (h : outcome (shape.newPack draw ids payload) before = (.ok pack, after)) :
    ∃ reply, shape.Renames reply pack := by
  induction shape generalizing ids payload pack before after with
  | nil =>
    cases h
    exact ⟨[], .nil⟩
  | leaf column rest ih =>
    obtain ⟨value, middle, others, -, hothers, rfl⟩ := newPack_leaf h
    obtain ⟨reply, hreply⟩ := ih hothers
    exact ⟨_, .leaf value hreply⟩
  | branch column placed inner rest ihInner ihRest =>
    rcases newPack_branch h with ⟨value, others, hgiven, hothers, rfl⟩ |
      ⟨nested, completed, below, others, middle, later, -, -, -, hbelow, hothers, rfl⟩
    · obtain ⟨reply, hreply⟩ := ihRest hothers
      exact ⟨_, .link (Column.plain_of_link hgiven) hreply⟩
    · obtain ⟨inside, hinside⟩ := ihInner hbelow
      obtain ⟨reply, hreply⟩ := ihRest hothers
      exact ⟨_, .row hinside hreply⟩

end

namespace Resource

variable {schema : Schema} {root : Table} {resource : Resource}

theorem renames_newPack {σ : Type} {draw : IdGenerator → StateM σ Json}
    {payload pack : Entries Json} {before after : σ}
    (h : outcome (resource.newPack draw payload) before = (.ok pack, after)) :
    ∃ reply, resource.shape.Renames reply pack := by
  obtain ⟨_, checked, hchecked, h⟩ := outcome_bind_ok.1 h
  exact Shape.renames_newPack h

/-- **A reply is a fixed point.** Over tables whose columns show under their own, distinct
names, a body that is accepted is answered with the pack under display names. That answer,
taken for a body, is accepted without an identifier being drawn and gives the same pack,
and so does renaming its keys. -/
theorem reply_fixed_point {σ : Type} {draw : IdGenerator → StateM σ Json}
    (hcompile : compile schema root = .ok resource)
    (hshows : ∀ table ∈ root :: schema.tables, table.ShowsNames)
    {body pack : Entries Json} {before after : σ}
    (hpack : outcome (resource.newPack draw body) before = (.ok pack, after)) :
    ∃ reply, resource.payloadOf pack = .ok reply ∧
      (∀ {τ : Type} (redraw : IdGenerator → StateM τ Json),
        resource.newPack redraw reply = pure pack) ∧
      resource.packOf reply = .ok pack := by
  have hapart := namesApart hcompile hshows
  obtain ⟨reply, hrenames⟩ := renames_newPack hpack
  refine ⟨reply, payloadOf_of_renames (keyed hcompile) hapart hrenames, ?_,
    packOf_of_renames hapart hrenames⟩
  intro τ redraw
  exact newPack_of_renames redraw hapart hrenames

end Resource

/-! ## An order in few words -/

/-- The shop of orders and addresses, with aliases for a customer and a city. -/
def aliasedShop : Schema :=
  addressedShop.toSchema [] [("shop.orders.customer_id", ["buyer"]),
    ("shop.addresses.city", ["town"])]

def aliasedTable : Table :=
  (aliasedShop.table? "shop.orders").getD default

def aliasedOrder : Resource :=
  (Resource.compile aliasedShop aliasedTable).toOption.get (by decide +kernel)

/-- A new customer at an address that is there, and a new address to ship to. -/
def orderInFewWords : Entries Json :=
  [("buyer", .obj [("customer_id_address_id", .int 5)]),
    ("shipping_id", .obj [("shipping_id_town", .str "Oslo")])]

/-- The order with the identifiers that are drawn for it. -/
def orderInFull : Entries Json :=
  [("id", .int 1000),
    ("customer_id", .obj [("customer_id_id", .int 1001), ("customer_id_address_id", .int 5)]),
    ("shipping_id", .obj [("shipping_id_id", .int 1002), ("shipping_id_city", .str "Oslo")])]

/-- The order is answered in full, and the answer makes the same pack. -/
theorem order_answered_in_full :
    Resource.compile aliasedShop aliasedTable = .ok aliasedOrder ∧
      (∀ table ∈ aliasedTable :: aliasedShop.tables, table.ShowsNames) ∧
      ∃ pack, outcome (aliasedOrder.newPack counting orderInFewWords) 1000 = (.ok pack, 1003) ∧
        aliasedOrder.payloadOf pack = .ok orderInFull ∧
        outcome (aliasedOrder.newPack counting orderInFull) 1003 = (.ok pack, 1003) ∧
        aliasedOrder.packOf orderInFull = .ok pack := by
  have hcompile : Resource.compile aliasedShop aliasedTable = .ok aliasedOrder := eq_ok_get _
  have hshows : ∀ table ∈ aliasedTable :: aliasedShop.tables, table.ShowsNames := by
    decide +kernel
  let pack : Entries Json := [("shop.orders.id", .int 1000),
    ("shop.orders.customer_id_branch", .obj [("shop.customers.id", .int 1001),
      ("shop.customers.address_id", .int 5)]),
    ("shop.orders.shipping_id_branch", .obj [("shop.addresses.id", .int 1002),
      ("shop.addresses.city", .str "Oslo")])]
  have hpack : outcome (aliasedOrder.newPack counting orderInFewWords) 1000 = (.ok pack, 1003) := by
    decide +kernel
  have hreply : aliasedOrder.payloadOf pack = .ok orderInFull := by decide +kernel
  obtain ⟨reply, hanswer, hagain, hrenamed⟩ := Resource.reply_fixed_point hcompile hshows hpack
  obtain rfl : reply = orderInFull := Except.ok.inj (hanswer.symm.trans hreply)
  refine ⟨hcompile, hshows, pack, hpack, hreply, ?_, hrenamed⟩
  rw [hagain counting, outcome_pure]

end TableApi
