import TableApi.Proofs.Renaming.Replies
import TableApi.Proofs.Statements.Bodies

/-!
# No value reaches the text

Two runs of one resource, of requests that differ in values only, generate statements of
the same texts, with equally many values bound to them: `text_ignores_values`. It holds
for requests of every kind, whatever the values are.
-/

namespace TableApi

/-- What a client or the database gives for statements to be generated of. -/
inductive Request : Type 1 where
  /-- The parameters of a list of rows. -/
  | list (params : Params)
  /-- The identifier of a single row. -/
  | read (id : String)
  /-- The body of a new row, with the source of identifiers and its state. -/
  | create {σ : Type} (draw : IdGenerator → StateM σ Json) (start : σ) (body : Entries Json)
  /-- The row to be deleted, as it was read. -/
  | delete (row : Row)

namespace Resource

/-- The statements that are generated of a request which is accepted. -/
inductive Generates (resource : Resource) (pageLimit : Nat) : Request → List Statement → Prop
  | list {params selection} (hread : resource.readList params pageLimit = .ok selection) :
      Generates resource pageLimit (.list params) [resource.query selection]
  | read {id selection} (hread : resource.readSingle id = .ok selection) :
      Generates resource pageLimit (.read id) [resource.query selection]
  | create {σ : Type} {draw : IdGenerator → StateM σ Json} {start after : σ} {body pack batch}
      (hpack : outcome (resource.newPack draw body) start = (.ok pack, after))
      (hbatch : resource.inserts pack = .ok batch) :
      Generates resource pageLimit (.create draw start body) (batch.map Insertion.statement)
  | delete {row payload pack batch} (hunpack : resource.unpack row = .ok payload)
      (hpack : resource.packOf payload = .ok pack) (hbatch : resource.deletes pack = .ok batch) :
      Generates resource pageLimit (.delete row) (batch.map Deletion.statement)

/-- Requests of one kind that differ in values only: lists in what is filtered by and in
the number of the page, single rows in the identifier, new rows in plain values and in the
identifiers that are drawn, deleted rows in whatever was read. -/
inductive Alike (resource : Resource) : Request → Request → Prop
  | list {params other} (h : Params.Alike params other) :
      Alike resource (.list params) (.list other)
  | read (id other) : Alike resource (.read id) (.read other)
  | create {σ τ : Type} {draw : IdGenerator → StateM σ Json} {draw' : IdGenerator → StateM τ Json}
      {body other : Entries Json} (start : σ) (start' : τ) (hplain : DrawsPlain draw)
      (hplain' : DrawsPlain draw') (hagree : resource.Agree body other) :
      Alike resource (.create draw start body) (.create draw' start' other)
  | delete (row other) : Alike resource (.delete row) (.delete other)

/-- **No value reaches the text.** Take two requests of one kind to a resource on which no
two columns of a table show under one name. If they differ in values only and both are
accepted, their statements have, one by one, the same text and equally many values. -/
theorem text_ignores_values {schema : Schema} {root : Table} {resource : Resource}
    (hcompile : compile schema root = .ok resource) (hapart : resource.shape.NamesApart)
    {pageLimit : Nat} {request other : Request} (halike : resource.Alike request other)
    {statements statements' : List Statement}
    (h : resource.Generates pageLimit request statements)
    (h' : resource.Generates pageLimit other statements') :
    List.Forall₂ Statement.SameText statements statements' := by
  cases halike with
  | list hparams =>
    cases h with | list hread =>
    cases h' with | list hread' =>
    exact .cons (sameText_query (readList_alike hparams hread hread')) .nil
  | read id other =>
    cases h with | read hread =>
    cases h' with | read hread' =>
    exact .cons (sameText_query (readSingle_alike hread hread')) .nil
  | create start start' hplain hplain' hagree =>
    cases h with | create hpack hbatch =>
    cases h' with | create hpack' hbatch' =>
    have hpacked := (packed_newPack hcompile hpack).1
    have hpacked' := (packed_newPack hcompile hpack').1
    have hbatches := inserts_alike (hpacked.holdsAlike hplain hplain' hpacked' hagree.rows)
      hbatch hbatch'
    rw [List.forall₂_map_left_iff, List.forall₂_map_right_iff]
    exact hbatches.imp fun _ _ hrows => hrows.sameText
  | delete row other =>
    cases h with | delete hunpack hpack hbatch =>
    cases h' with | delete hunpack' hpack' hbatch' =>
    obtain rfl := packOf_unpack hapart hunpack hpack
    obtain rfl := packOf_unpack hapart hunpack' hpack'
    have hholds : resource.shape.HoldsAlike (resource.shape.rowPack row).1
        (resource.shape.rowPack other).1 :=
      Shape.holdsAlike_rowPack (keyed hcompile) hapart.below (fun _ _ => rfl) fun _ _ => rfl
    have hbatches := deletes_alike hholds hbatch hbatch'
    rw [List.forall₂_map_left_iff, List.forall₂_map_right_iff]
    exact hbatches.imp fun _ _ hrows => hrows.sameText

end Resource

/-! ## Values that look like text -/

/-- The order in few words with other values, which would end a text in quotes. -/
def orderOfQuotes : Entries Json :=
  [("buyer", .obj [("customer_id_address_id", .str "5) -- ")]),
    ("shipping_id", .obj [("shipping_id_town", .str "'; DROP TABLE orders; --")])]

/-- The pack of either order, with identifiers from `id` on. -/
def packOfOrder (id : Int) (address city : Json) : Entries Json :=
  [("shop.orders.id", .int id),
    ("shop.orders.customer_id_branch", .obj [("shop.customers.id", .int (id + 1)),
      ("shop.customers.address_id", address)]),
    ("shop.orders.shipping_id_branch", .obj [("shop.addresses.id", .int (id + 2)),
      ("shop.addresses.city", city)])]

theorem drawsPlain_counting : DrawsPlain counting :=
  fun _ _ => rfl

/-- Both orders are inserted by the same texts. -/
theorem quotes_are_bound :
    Resource.compile aliasedShop aliasedTable = .ok aliasedOrder ∧
      aliasedOrder.shape.NamesApart ∧ aliasedOrder.Agree orderInFewWords orderOfQuotes ∧
      ∃ statements statements',
        aliasedOrder.Generates 0 (.create counting (1000 : Int) orderInFewWords) statements ∧
        aliasedOrder.Generates 0 (.create counting (7 : Int) orderOfQuotes) statements' ∧
        List.Forall₂ Statement.SameText statements statements' := by
  have hcompile : Resource.compile aliasedShop aliasedTable = .ok aliasedOrder := eq_ok_get _
  have hapart : aliasedOrder.shape.NamesApart := by decide +kernel
  have hagree : aliasedOrder.Agree orderInFewWords orderOfQuotes := by decide +kernel
  have halike : aliasedOrder.Alike (.create counting (1000 : Int) orderInFewWords)
      (.create counting (7 : Int) orderOfQuotes) :=
    .create 1000 7 drawsPlain_counting drawsPlain_counting hagree
  have hpack : outcome (aliasedOrder.newPack counting orderInFewWords) 1000 =
      (.ok (packOfOrder 1000 (.int 5) (.str "Oslo")), 1003) := by
    decide +kernel
  have hpack' : outcome (aliasedOrder.newPack counting orderOfQuotes) 7 =
      (.ok (packOfOrder 7 (.str "5) -- ") (.str "'; DROP TABLE orders; --")), 10) := by
    decide +kernel
  have hbatch := eq_ok_get (x := aliasedOrder.inserts (packOfOrder 1000 (.int 5) (.str "Oslo")))
    (by decide +kernel)
  have hbatch' := eq_ok_get
    (x := aliasedOrder.inserts (packOfOrder 7 (.str "5) -- ") (.str "'; DROP TABLE orders; --")))
    (by decide +kernel)
  have hfirst : aliasedOrder.Generates 0 (.create counting (1000 : Int) orderInFewWords) _ :=
    .create hpack hbatch
  have hsecond : aliasedOrder.Generates 0 (.create counting (7 : Int) orderOfQuotes) _ :=
    .create hpack' hbatch'
  exact ⟨hcompile, hapart, hagree, _, _, hfirst, hsecond,
    Resource.text_ignores_values hcompile hapart halike hfirst hsecond⟩

end TableApi
