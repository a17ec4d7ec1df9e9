import TableApi.Proofs.Calls
import TableApi.Proofs.Packing.Complete
import TableApi.Proofs.Parameters

/-!
# Breaches of contract

A pack without a value that a statement needs, an object with a key of no column and a row
of the wrong width are breaches of contract: none of them is a request's fault. Here each is
traced to what makes packs and rows. `Api.contract_kept` says that no request ends with a
breach, as long as the database answers in width.

Two things are asked of the tables. The keys of each are apart, since a column that was
replaced has no value in any pack; and, for deleting alone, no two columns of one table show
under the same name, since a row that was read has one value under it. `places_confused`
shows a breach for want of either.
-/

namespace TableApi

/-- A fault that is not a breach of contract. -/
def Fault.KeepsContract : Fault → Prop
  | contract _ => False
  | _ => True

/-- Whenever the database answers a query of the resource, it does so with rows of its
width. -/
def World.AnswersInWidth {σ : Type} (world : World σ) (resource : Resource) : Prop :=
  ∀ selection state rows, ((world.query (resource.query selection)).run state).1 = .ok rows →
    ∀ row ∈ rows, row.length = resource.columns.length

/-! ## Faults of single steps -/

theorem Fault.IsRefusal.keepsContract {fault : Fault} (h : fault.IsRefusal) :
    fault.KeepsContract := by
  obtain ⟨refusal, rfl⟩ := h
  trivial

theorem Api.failsOnly_resource (api : Api) (name : String) :
    FailsOnly Fault.KeepsContract (api.resource name) := by
  unfold resource
  split
  · exact .ok _
  · split
    · exact .ok _
    · exact .error trivial

section Steps

variable {σ : Type}

theorem World.failsOnly_rows (world : World σ) (query : Statement) (start : σ) :
    FailsOnly Fault.KeepsContract (outcome (world.rows query) start).1 := by
  rw [outcome_rows]
  rcases (world.query query).run start with ⟨_ | _, _⟩
  · exact .error trivial
  · exact .ok _

theorem World.failsOnly_run (world : World σ) (statements : List Statement) (start : σ) :
    FailsOnly Fault.KeepsContract (outcome (world.run statements) start).1 := by
  rw [run, outcome_bind, outcome_lift]
  rcases (world.executeAll statements).run start with ⟨_ | _, _⟩
  · exact .error trivial
  · exact .ok _

theorem World.AnswersInWidth.rows {world : World σ} {resource : Resource}
    (h : world.AnswersInWidth resource) {selection : Selection} {start final : σ}
    {rows : List Row}
    (hrows : outcome (world.rows (resource.query selection)) start = (.ok rows, final)) :
    ∀ row ∈ rows, row.length = resource.columns.length := by
  rw [outcome_rows, Prod.mk.injEq] at hrows
  refine h selection start rows ?_
  rcases hanswer : (world.query (resource.query selection)).run start with ⟨_ | answer, _⟩
  · rw [hanswer] at hrows
    cases hrows.1
  · rw [hanswer] at hrows
    rw [Except.ok.inj hrows.1]

/-- Rows of the right width can be unpacked. -/
theorem Resource.failsOnly_unpack {resource : Resource} {row : Row}
    (hwidth : row.length = resource.columns.length) {kind : Fault → Prop} :
    FailsOnly kind (resource.unpack row) := by
  rw [unpack, if_pos hwidth]
  exact .ok _

/-! ## New packs -/

variable (draw : IdGenerator → StateM σ Json)

theorem Column.failsOnly_newValue (column : Column) (ids : IdGenerator) (payload : Entries Json)
    (start : σ) :
    FailsOnly Fault.KeepsContract (outcome (column.newValue draw ids payload) start).1 := by
  unfold newValue
  split
  · exact .ok _
  · split
    · exact .ok _
    · exact .error trivial

theorem Column.failsOnly_withTarget (column : Column) (placed : Placed) (inner : Shape)
    (payload : Entries Json) (start : σ) {kind : Fault → Prop} :
    FailsOnly kind (outcome (column.withTarget draw placed inner payload) start).1 := by
  unfold withTarget
  split
  · exact .ok _
  · split
    · exact .ok _
    · exact .ok _

theorem Shape.failsOnly_checkKeys (shape : Shape) (payload : Entries Json) :
    FailsOnly Fault.KeepsContract (shape.checkKeys payload) := by
  unfold checkKeys
  split
  · exact .error trivial
  · exact .ok _

/-- No payload is at fault for a breach of contract when it is packed. -/
theorem Shape.failsOnly_newPack (shape : Shape) (ids : IdGenerator) (payload : Entries Json)
    (start : σ) :
    FailsOnly Fault.KeepsContract (outcome (shape.newPack draw ids payload) start).1 := by
  induction shape generalizing ids payload start with
  | nil => exact .ok _
  | leaf column rest ih =>
    rw [newPack]
    refine failsOnly_outcome_bind (column.failsOnly_newValue draw ids payload start) ?_
    intro value middle _
    exact failsOnly_outcome_bind (ih ids payload middle) fun _ _ _ => .ok _
  | branch column placed inner rest ihInner ihRest =>
    rw [newPack]
    cases column.givenIn payload with
    | link value => exact failsOnly_outcome_bind (ihRest ids payload start) fun _ _ _ => .ok _
    | row nested =>
      refine failsOnly_outcome_bind (column.failsOnly_withTarget draw placed inner nested start) ?_
      intro completed atKeys _
      refine failsOnly_outcome_except (inner.failsOnly_checkKeys completed) ?_
      intro _ _
      refine failsOnly_outcome_bind (ihInner placed.table.ids completed atKeys) ?_
      intro below atRest _
      exact failsOnly_outcome_bind (ihRest ids payload atRest) fun _ _ _ => .ok _

theorem Resource.failsOnly_newPack (resource : Resource) (payload : Entries Json) (start : σ) :
    FailsOnly Fault.KeepsContract (outcome (resource.newPack draw payload) start).1 :=
  failsOnly_outcome_except (resource.shape.failsOnly_checkKeys payload) fun _ _ =>
    resource.shape.failsOnly_newPack draw _ payload start

/-! ## Requests -/

variable (world : World σ) {resource : Resource}

theorem Resource.failsOnly_readSingle (resource : Resource) (id : String) :
    FailsOnly Fault.KeepsContract (resource.readSingle id) := by
  unfold readSingle
  split
  · exact .error trivial
  · refine .bind ?_ fun _ _ => .ok _
    exact (failsOnly_paramKindRead _ _ _).mono fun _ => Fault.IsRefusal.keepsContract
  · exact .error trivial

namespace Api

/-- A single row is read without a breach of contract. -/
theorem failsOnly_fetch (hwidth : world.AnswersInWidth resource) (id : String) (start : σ) :
    FailsOnly Fault.KeepsContract (outcome (fetch world resource id) start).1 := by
  refine failsOnly_outcome_except (resource.failsOnly_readSingle id) fun selection _ => ?_
  refine failsOnly_outcome_bind (world.failsOnly_rows _ _) fun rows final hrows => ?_
  have hrow := hwidth.rows hrows
  split
  · exact .error trivial
  · next row => exact Resource.failsOnly_unpack (hrow row List.mem_cons_self)
  · exact .error trivial

theorem unpack_of_fetch {id : String} {start final : σ} {payload : Entries Json}
    (h : outcome (fetch world resource id) start = (.ok payload, final)) :
    ∃ row, resource.unpack row = .ok payload := by
  obtain ⟨selection, middle, -, h⟩ := outcome_bind_ok.1 h
  obtain ⟨rows, last, -, h⟩ := outcome_bind_ok.1 h
  split at h
  · cases h
  · next row => exact ⟨row, congrArg Prod.fst h⟩
  · cases h

variable {api : Api}

theorem failsOnly_list (hwidth : ∀ resource ∈ api.resources, world.AnswersInWidth resource)
    (start : σ) (name : String) (params : Params) :
    FailsOnly Fault.KeepsContract (outcome (api.list world name params) start).1 := by
  refine failsOnly_outcome_except (api.failsOnly_resource name) fun resource hresource => ?_
  have hlist := resource.failsOnly_readList params api.pageLimit
  refine failsOnly_outcome_except (hlist.mono fun _ => Fault.IsRefusal.keepsContract)
    fun selection _ => ?_
  refine failsOnly_outcome_bind (world.failsOnly_rows _ _) fun rows final hrows => ?_
  have hrow := (hwidth resource (mem_of_resource hresource)).rows hrows
  split
  · exact .error trivial
  · exact failsOnly_outcome_except
      (.mapM fun row hmem => Resource.failsOnly_unpack (hrow row hmem)) fun _ _ => .ok _

theorem failsOnly_read (hwidth : ∀ resource ∈ api.resources, world.AnswersInWidth resource)
    (start : σ) (name id : String) :
    FailsOnly Fault.KeepsContract (outcome (api.read world name id) start).1 := by
  refine failsOnly_outcome_except (api.failsOnly_resource name) fun resource hresource => ?_
  have hfetch := failsOnly_fetch world (hwidth resource (mem_of_resource hresource)) id start
  exact failsOnly_outcome_bind hfetch fun _ _ _ => .ok _

/-- What was packed can be inserted and answered with. -/
theorem failsOnly_create
    (hcompiled : ∀ resource ∈ api.resources, ∃ schema root,
      Resource.compile schema root = .ok resource ∧
        ∀ table ∈ resource.tables, schema.KeysApart table)
    (start : σ) (name : String) (body : Entries Json) :
    FailsOnly Fault.KeepsContract (outcome (api.create world name body) start).1 := by
  refine failsOnly_outcome_except (api.failsOnly_resource name) fun resource hresource => ?_
  obtain ⟨schema, root, hcompile, hapart⟩ := hcompiled resource (mem_of_resource hresource)
  refine failsOnly_outcome_bind (resource.failsOnly_newPack world.draw body start)
    fun pack middle hpack => ?_
  obtain ⟨insertions, hinserts⟩ := Resource.inserts_of_newPack hcompile hapart hpack
  obtain ⟨pairs, hcreated, -⟩ := Resource.payloadOf_newPack hcompile hpack
  refine failsOnly_outcome_except (by rw [hinserts]; exact .ok _) fun batch _ => ?_
  refine failsOnly_outcome_bind (world.failsOnly_run _ _) fun _ _ _ => ?_
  exact failsOnly_outcome_except (by rw [hcreated]; exact .ok _) fun _ _ => .ok _

/-- What was read can be deleted, or the keys do not allow it. -/
theorem failsOnly_delete
    (hcompiled : ∀ resource ∈ api.resources, ∃ schema root,
      Resource.compile schema root = .ok resource ∧
        ∀ table ∈ resource.tables, schema.KeysApart table)
    (hwidth : ∀ resource ∈ api.resources, world.AnswersInWidth resource)
    (hprimaries : ∀ resource ∈ api.resources, ∀ table ∈ resource.tables, table.PrimariesApart)
    (start : σ) (name id : String) :
    FailsOnly Fault.KeepsContract (outcome (api.delete world name id) start).1 := by
  refine failsOnly_outcome_except (api.failsOnly_resource name) fun resource hresource => ?_
  have hmem := mem_of_resource hresource
  obtain ⟨schema, root, hcompile, hapart⟩ := hcompiled resource hmem
  refine failsOnly_outcome_bind (failsOnly_fetch world (hwidth resource hmem) id start)
    fun payload middle hfetch => ?_
  obtain ⟨row, hunpack⟩ := unpack_of_fetch world hfetch
  obtain ⟨pack, hpack, hdeletes⟩ :=
    Resource.deletes_of_unpack hcompile hapart (hprimaries resource hmem) hunpack
  have hfails : FailsOnly Fault.KeepsContract (resource.deletes pack) := by
    rcases hdeletes with ⟨-, deletions, hdeletes⟩ | ⟨table, -, -, hdeletes⟩
    · rw [hdeletes]
      exact .ok _
    · rw [hdeletes]
      exact .error trivial
  refine failsOnly_outcome_except (by rw [hpack]; exact .ok _) fun _ heq => ?_
  obtain rfl := Except.ok.inj (hpack.symm.trans heq)
  refine failsOnly_outcome_except hfails fun batch _ => ?_
  exact failsOnly_outcome_bind (world.failsOnly_run _ _) fun _ _ _ => .ok _

end Api

end Steps

theorem FailsOnly.ne_contract {α : Type} {step : Except Fault α}
    (h : FailsOnly Fault.KeepsContract step) (breach : Breach) : step ≠ .error (.contract breach) :=
  h (.contract breach)

/-- **No breach of contract.** Over compiled resources with keys that are apart, in every world
that answers in width and in every state of it, no request to list, read or create ends with a
breach, and none to delete does if the tables show their columns under names that are apart.
New packs can be inserted and answered with; rows that were read can be renamed and deleted,
unless one of the tables has no primary key to delete by. -/
theorem Api.contract_kept {σ : Type} (world : World σ) {api : Api}
    (hcompiled : ∀ resource ∈ api.resources, ∃ schema root,
      Resource.compile schema root = .ok resource ∧
        ∀ table ∈ resource.tables, schema.KeysApart table)
    (hwidth : ∀ resource ∈ api.resources, world.AnswersInWidth resource) (start : σ)
    (name : String) :
    (∀ params breach, (outcome (api.list world name params) start).1 ≠ .error (.contract breach)) ∧
    (∀ id breach, (outcome (api.read world name id) start).1 ≠ .error (.contract breach)) ∧
    (∀ body breach, (outcome (api.create world name body) start).1 ≠ .error (.contract breach)) ∧
    ((∀ resource ∈ api.resources, ∀ table ∈ resource.tables, table.PrimariesApart) →
      ∀ id breach, (outcome (api.delete world name id) start).1 ≠ .error (.contract breach)) ∧
    ∀ resource ∈ api.resources,
      (∀ payload pack before after,
        outcome (resource.newPack world.draw payload) before = (.ok pack, after) →
          (∃ insertions, resource.inserts pack = .ok insertions) ∧
          ∃ created, resource.payloadOf pack = .ok created) ∧
      ((∀ table ∈ resource.tables, table.PrimariesApart) → ∀ row payload,
        resource.unpack row = .ok payload → ∃ pack, resource.packOf payload = .ok pack ∧
          (((∀ table ∈ resource.tables, ¬ table.Keyless) ∧
              ∃ deletions, resource.deletes pack = .ok deletions) ∨
            ∃ table ∈ resource.tables, table.Keyless ∧
              resource.deletes pack =
                .error (.integrity (.nothingToDeleteBy table.qualifiedName)))) := by
  refine ⟨fun params => (failsOnly_list world hwidth start name params).ne_contract,
    fun id => (failsOnly_read world hwidth start name id).ne_contract,
    fun body => (failsOnly_create world hcompiled start name body).ne_contract,
    fun hprimaries id =>
      (failsOnly_delete world hcompiled hwidth hprimaries start name id).ne_contract, ?_⟩
  intro resource hresource
  obtain ⟨schema, root, hcompile, hapart⟩ := hcompiled resource hresource
  constructor
  · intro payload pack before after hpack
    obtain ⟨pairs, hcreated, -⟩ := Resource.payloadOf_newPack hcompile hpack
    exact ⟨Resource.inserts_of_newPack hcompile hapart hpack, _, hcreated⟩
  · intro hprimaries row payload hunpack
    exact Resource.deletes_of_unpack hcompile hapart hprimaries hunpack

/-! ## Orders that are there -/

/-- A database that answers every query with one row. -/
def rowWorld (row : Row) : World Int where
  query _ := pure (.ok [row])
  executeAll _ := pure (.ok 1)
  isValid := pure true
  draw := counting

theorem answersInWidth_rowWorld {resource : Resource} {row : Row}
    (h : row.length = resource.columns.length) : (rowWorld row).AnswersInWidth resource := by
  intro selection state rows hrows found hfound
  cases hrows
  rwa [List.mem_singleton.1 hfound]

def addressApi : Api := ⟨[addressedOrder], 0⟩

/-- An order, its customer, the customer's address and the one to ship to. -/
def addressRow : Row :=
  [.int 1, .int 2, .int 3, .str "Oslo", .int 4, .str "Bergen"]

/-- The order is deleted with all that it refers to, and no request for it is a breach. -/
theorem order_deleted :
    (∀ resource ∈ addressApi.resources, ∃ schema root,
      Resource.compile schema root = .ok resource ∧
        ∀ table ∈ resource.tables, schema.KeysApart table) ∧
    (∀ resource ∈ addressApi.resources, (rowWorld addressRow).AnswersInWidth resource) ∧
    (∀ resource ∈ addressApi.resources, ∀ table ∈ resource.tables, table.PrimariesApart) ∧
    (∃ reply, (outcome (addressApi.delete (rowWorld addressRow) "shop_orders" "1") 0).1 =
      .ok reply) ∧
    (∀ id breach, (outcome (addressApi.delete (rowWorld addressRow) "shop_orders" id) 0).1 ≠
      .error (.contract breach)) ∧
    ∀ params breach, (outcome (addressApi.list (rowWorld addressRow) "shop_orders" params) 0).1 ≠
      .error (.contract breach) := by
  have hcompiled : ∀ resource ∈ addressApi.resources, ∃ schema root,
      Resource.compile schema root = .ok resource ∧
        ∀ table ∈ resource.tables, schema.KeysApart table := by
    intro resource hresource
    rw [List.mem_singleton.1 hresource]
    exact ⟨_, _, eq_ok_get _, by decide +kernel⟩
  have hwidth : ∀ resource ∈ addressApi.resources,
      (rowWorld addressRow).AnswersInWidth resource := by
    intro resource hresource
    rw [List.mem_singleton.1 hresource]
    exact answersInWidth_rowWorld (by decide +kernel)
  have hprimaries : ∀ resource ∈ addressApi.resources, ∀ table ∈ resource.tables,
      table.PrimariesApart := by
    decide +kernel
  have hkept := Api.contract_kept (rowWorld addressRow) hcompiled hwidth 0 "shop_orders"
  exact ⟨hcompiled, hwidth, hprimaries, ⟨_, eq_ok_get (by decide +kernel)⟩,
    hkept.2.2.2.1 hprimaries, hkept.1⟩

/-! ## Two places of one name -/

/-- Orders go from a depot to a customer, and both show as the place of the order. -/
def placeShop : Schema where
  databases := [⟨"shop", [
    .ofColumns "shop" "cities" [{ Column.ofType "shop" "cities" "id" "int(11)" with
      keyRole := .primary }],
    .ofColumns "shop" "customers" [
      { Column.ofType "shop" "customers" "id" "int(11)" with keyRole := .primary },
      (Column.ofType "shop" "customers" "city_id" "int(11)").references ⟨"shop", "cities", "id"⟩],
    .ofColumns "shop" "depots" [{ Column.ofType "shop" "depots" "city_id" "int(11)" with
      keyRole := .primary }],
    .ofColumns "shop" "orders" [
      { Column.ofType "shop" "orders" "id" "int(11)" with keyRole := .primary },
      { (Column.ofType "shop" "orders" "customer_id" "int(11)").references
          ⟨"shop", "customers", "id"⟩ with displayName := ⟨"place", []⟩ },
      { (Column.ofType "shop" "orders" "depot_city" "int(11)").references
          ⟨"shop", "depots", "city_id"⟩ with displayName := ⟨"place", []⟩ }]],
    .openTo "shop"⟩]

def placeTable : Table :=
  (placeShop.table? "shop.orders").getD default

def placeOrder : Resource :=
  (Resource.compile placeShop placeTable).toOption.get (by decide +kernel)

/-- Orders refer to the identifier of a customer, whose table has a column that is addressed
just as the identifier is. -/
def euShop : Schema where
  databases := [⟨"shop", [
    .ofColumns "shop" "eu.customers" [
      { Column.ofType "shop" "eu.customers" "id" "int(11)" with keyRole := .primary },
      Column.ofType "shop" "eu" "customers.id" "int(11)"],
    .ofColumns "shop" "orders" [
      { Column.ofType "shop" "orders" "id" "int(11)" with keyRole := .primary },
      (Column.ofType "shop" "orders" "customer_id" "int(11)").references
        ⟨"shop", "eu.customers", "id"⟩]],
    .openTo "shop"⟩]

def euTable : Table :=
  (euShop.table? "shop.orders").getD default

def euOrder : Resource :=
  (Resource.compile euShop euTable).toOption.get (by decide +kernel)

/-- Of the two places of an order only one is left in its payload, and the customer's identifier
is missing when the order is deleted. An identifier that was replaced is missing when a customer
is inserted. In neither shop has a table two columns of one name, or one named as a branch. -/
theorem places_confused :
    (∀ table ∈ placeShop.tables ++ euShop.tables, (table.columns.map Column.name).Nodup ∧
      ∀ column ∈ table.columns, branchKey column.name ∉ table.columns.map Column.name) ∧
    placeShop.validate = .ok () ∧
    Resource.compile placeShop placeTable = .ok placeOrder ∧
    (rowWorld [.int 1, .int 5, .int 7, .int 7]).AnswersInWidth placeOrder ∧
    (outcome (Api.delete (rowWorld [.int 1, .int 5, .int 7, .int 7]) ⟨[placeOrder], 0⟩ "shop_orders"
      "1") 0).1 = .error (.contract (.missingValue "shop.customers.id")) ∧
    Resource.compile euShop euTable = .ok euOrder ∧
    ∃ pack, outcome (euOrder.newPack counting [("id", .int 1), ("customer_id",
        .obj [("customer_id_customers.id", .int 5)])]) 0 = (.ok pack, 0) ∧
      euOrder.inserts pack = .error (.contract (.missingValue "shop.orders.customer_id")) := by
  let pack : Entries Json := [("shop.orders.id", .int 1),
    ("shop.orders.customer_id_branch", .obj [("shop.eu.customers.id", .int 5)])]
  exact ⟨by decide +kernel, by decide +kernel, eq_ok_get _,
    answersInWidth_rowWorld (by decide +kernel), by decide +kernel, eq_ok_get _, pack,
    by decide +kernel, eq_error_of_map (by decide +kernel)⟩

end TableApi
