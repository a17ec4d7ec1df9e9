import TableApi.Proofs.Faithful
import TableApi.Proofs.Inserting
import TableApi.Proofs.Selecting.Satisfied

/-!
# Which created rows are answered

A new row is inserted in one batch with the rows that its body brings along, and a
foreign key may be null. The SELECT of the resource joins tables over foreign keys, and
a null joins nothing, so a row that was created may never be answered.

`created_answered_iff` says for every body when it is: the joins reach no null from it.
Read off the pack, this means that no foreign key holds null, neither in the rows of the
pack nor in those that its links lead to (`Shape.unbrokenPack`): a row in a branch is
always found again, because the value that refers to it is its own. `order_of_nobody` is
an order whose customer is given as null; it is created and in no answer.
-/

namespace TableApi

/-- A row has the values that it lists. -/
theorem Record.value_of_mem {record : Record} (hnodup : (record.map Prod.fst).Nodup)
    {cell : String × Json} (h : cell ∈ record) : record.value cell.1 = cell.2 := by
  rw [value, Entries.get?_of_mem hnodup h, Option.getD_some]

/-- What is packed behind a column without a branch. -/
theorem Shape.Packed.of_leaf {σ : Type} {draw : IdGenerator → StateM σ Json} {ids : IdGenerator}
    {payload pack : Entries Json} {column : Column} {rest : Shape} {before after : σ}
    (h : (leaf column rest).Packed draw ids payload pack before after) :
    ∃ middle, rest.Packed draw ids payload pack middle after := by
  cases h with
  | given _ _ hrest => exact ⟨_, hrest⟩
  | drawn _ _ _ hrest => exact ⟨_, hrest⟩

/-! ## Nulls on the way -/

/-- The rows that a value of a column with a branch refers to. -/
def Store.ledTo (store : Store) (column : Column) (placed : Placed) (value : Json) :
    List Record :=
  match column.relation with
  | none => []
  | some target => store.matching placed.table target.column value

namespace Shape

/-- No foreign key holds null, neither in a row nor in the rows that it refers to. -/
def unbroken (store : Store) (record : Record) : Shape → Bool
  | nil => true
  | leaf _ rest => rest.unbroken store record
  | branch column placed inner rest =>
    record.value column.name ≠ .null &&
      (store.ledTo column placed (record.value column.name)).all (fun found =>
        inner.unbroken store found) &&
      rest.unbroken store record

/-- No foreign key holds null, neither in the rows of a pack nor in the rows that its
links refer to. -/
def unbrokenPack (store : Store) (pack : Entries Json) : Shape → Bool
  | nil => true
  | leaf _ rest => rest.unbrokenPack store pack
  | branch column placed inner rest =>
    let held := column.heldIn? pack fun name nested => inner.valueOf? name nested
    held ≠ some .null &&
      (match pack.get? column.branchKey with
        | some (.obj below) => inner.unbrokenPack store below
        | _ => (store.ledTo column placed (held.getD .null)).all fun found =>
          inner.unbroken store found) &&
      rest.unbrokenPack store pack

section Branch

variable {store : Store} {pack object : Entries Json} {column : Column} {placed : Placed}
  {inner rest : Shape} {value : Json}

/-- A link is unbroken where its value and the rows that it refers to are. -/
theorem unbrokenPack_link (hget : pack.get? column.qualifiedName = some value)
    (hbranch : pack.get? column.branchKey = none) :
    (branch column placed inner rest).unbrokenPack store pack =
      (decide (value ≠ .null) &&
        (store.ledTo column placed value).all (fun found => inner.unbroken store found) &&
        rest.unbrokenPack store pack) := by
  have hheld : column.heldIn? pack (fun name nested => inner.valueOf? name nested) =
      some value := by
    rw [Column.heldIn?, hget]
  simp only [unbrokenPack, hheld, hbranch, ne_eq, Option.some.injEq, Option.getD_some]

/-- A row in a branch is unbroken where the value that refers to it is and what it holds
itself. -/
theorem unbrokenPack_row {inside : List Insertion} {own : List (String × Json)}
    {target : ColumnRef} (hget : pack.get? column.qualifiedName = none)
    (hbranch : pack.get? column.branchKey = some (.obj object))
    (hinside : inner.inserts object = .ok (inside, own)) (hrelation : column.relation = some target)
    (hown : Entries.get? own target.column = some value) :
    (branch column placed inner rest).unbrokenPack store pack =
      (decide (value ≠ .null) && inner.unbrokenPack store object &&
        rest.unbrokenPack store pack) := by
  have hheld : column.heldIn? pack (fun name nested => inner.valueOf? name nested) =
      some value := by
    rw [Column.heldIn?, hget, hrelation, hbranch, ← hown, get?_cells hinside]
  simp only [unbrokenPack, hheld, hbranch, ne_eq, Option.some.injEq]

end Branch

end Shape

theorem Schema.LeadsTo.ledTo_eq {schema : Schema} {source : Column} {target : ColumnRef}
    {table : Table} (h : schema.LeadsTo source target table) (store : Store) (owner lead : String)
    (index : Nat) (value : Json) :
    store.ledTo (source.mounted owner lead) (table.placedAt index) value =
      store.matching table target.column value := by
  have hrelation : (source.mounted owner lead).relation = some target := h.relation
  rw [Store.ledTo, hrelation]
  rfl

namespace Schema

variable {schema : Schema} {tables : List Table} {store : Store} {columns : List Column}
  {expansion : Expansion} {table : Table} {owner next : Nat} {path : List Column}

/-- Where foreign keys are satisfied, there are choices behind a row exactly when no
null is on the way. -/
theorem Expands.exists_choice_iff (h : schema.Expands columns expansion)
    (hsatisfied : schema.satisfied tables store = true) (hcolumns : columns ⊆ table.visibleColumns)
    (howner : (table.placedAt owner).table ∈ tables)
    (htables : expansion.tables owner next ⊆ tables) {record : Record}
    (hrecord : record ∈ store.of table) :
    expansion.choices store next record ≠ [] ↔
      (expansion.shape owner next path).unbroken store record = true := by
  induction h generalizing table owner next path record with
  | nil => simp [Expansion.choices, Expansion.shape, Shape.unbroken]
  | plain hlive hrest ih =>
    exact ih (List.subset_of_cons_subset hcolumns) howner htables hrecord
  | @follow source rest found referenced inner others hlive hinner hrest ihInner ihRest =>
    obtain ⟨target, hleads, rfl⟩ := liveTarget?_eq_some_iff.1 hlive
    rw [Expansion.tables_follow, List.cons_subset, List.append_subset] at htables
    obtain ⟨hfound, hinnerTables, hrestTables⟩ := htables
    have hothers : others.choices store (next + 1 + inner.size) record ≠ [] ↔
        (others.shape owner (next + 1 + inner.size) path).unbroken store record = true :=
      ihRest (List.subset_of_cons_subset hcolumns) howner hrestTables hrecord
    rw [Expansion.shape, Shape.unbroken, hleads.ledTo_eq, Bool.and_eq_true, Bool.and_eq_true,
      ← hothers]
    show _ ↔ (decide (record.value source.name ≠ .null) = true ∧
      (store.matching found target.column (record.value source.name)).all _ = true) ∧ _
    rcases null_or_matching hsatisfied howner (hcolumns List.mem_cons_self) hleads hrecord with
      hnull | ⟨other, hother⟩
    · simp [Expansion.choices, hnull, Store.matching_null]
    · have hvalue : record.value source.name ≠ .null := by
        intro hnull
        rw [hnull, Store.matching_null] at hother
        cases hother
      have hmem : other ∈ store.of found :=
        Store.mem_of_matching (hother ▸ List.mem_singleton.2 rfl)
      have hbelow : inner.choices store (next + 1) other ≠ [] ↔
          (inner.shape next (next + 1) (path ++ [source])).unbroken store other = true :=
        ihInner (List.Subset.refl _) hfound hinnerTables hmem
      rw [Expansion.choices_follow_ne_nil hother, hbelow, hother]
      simp [hvalue]

/-- Where a row that is known holds the value of a foreign key in the referenced column,
it is the one that the foreign key leads to. -/
theorem matching_eq_of_mem (hsatisfied : schema.satisfied tables store = true)
    (htable : table ∈ tables) {source : Column}
    (hsource : source ∈ table.visibleColumns) {target : ColumnRef} {found : Table}
    (hleads : schema.LeadsTo source target found) {record other : Record}
    (hrecord : record ∈ store.of table) (hother : other ∈ store.of found)
    (hvalue : record.value source.name ≠ .null)
    (hsame : other.value target.column = record.value source.name) :
    store.matching found target.column (record.value source.name) = [other] := by
  have hmem : other ∈ store.matching found target.column (record.value source.name) := by
    refine List.mem_filter.2 ⟨hother, ?_⟩
    rw [Json.sqlEqual_of_ne_null hvalue, hsame, decide_eq_true_iff]
  rcases null_or_matching hsatisfied htable hsource hleads hrecord with hnull | ⟨only, honly⟩
  · exact absurd hnull hvalue
  · rw [honly] at hmem ⊢
    rw [List.mem_singleton.1 hmem]

/-- The rows of a pack that were inserted hold null on the way exactly where the pack
does. -/
theorem Expands.unbroken_eq (h : schema.Expands columns expansion)
    (hsatisfied : schema.satisfied tables store = true) (hcolumns : columns ⊆ table.visibleColumns)
    (howner : (table.placedAt owner).table ∈ tables)
    (htables : expansion.tables owner next ⊆ tables)
    {σ : Type} {draw : IdGenerator → StateM σ Json} {ids : IdGenerator}
    {payload pack : Entries Json} {before after : σ}
    (hpacked : (expansion.shape owner next path).Packed draw ids payload pack before after)
    {below : List Insertion} {cells : List (String × Json)}
    (hinserts : (expansion.shape owner next path).inserts pack = .ok (below, cells))
    (hbelow : ∀ insertion ∈ below, insertion.cells ∈ store.of insertion.table ∧
      (insertion.cells.map Prod.fst).Nodup)
    {record : Record} (hrecord : record ∈ store.of table)
    (hcells : ∀ cell ∈ cells, record.value cell.1 = cell.2) :
    (expansion.shape owner next path).unbroken store record =
      (expansion.shape owner next path).unbrokenPack store pack := by
  induction h generalizing table owner next path ids payload pack before after below cells
    record with
  | nil => rfl
  | @plain source rest others hlive hrest ih =>
    obtain ⟨value, tail, -, htail, rfl⟩ := Shape.inserts_leaf hinserts
    obtain ⟨middle, hpackedRest⟩ := hpacked.of_leaf
    exact ih (List.subset_of_cons_subset hcolumns) howner htables hpackedRest htail hbelow hrecord
      (List.forall_mem_cons.1 hcells).2
  | @follow source rest found referenced inner others hlive hinner hrest ihInner ihRest =>
    obtain ⟨target, hleads, rfl⟩ := liveTarget?_eq_some_iff.1 hlive
    rw [Expansion.tables_follow, List.cons_subset, List.append_subset] at htables
    obtain ⟨hfound, hinnerTables, hrestTables⟩ := htables
    have hrestColumns := List.subset_of_cons_subset hcolumns
    rw [Expansion.shape, Shape.unbroken, hleads.ledTo_eq]
    cases hpacked with
    | link _ hget hbranch hpackedRest =>
      obtain ⟨tail, htail, rfl⟩ := Shape.inserts_link hget hbranch hinserts
      obtain ⟨hvalue, htailCells⟩ := List.forall_mem_cons.1 hcells
      rw [Shape.unbrokenPack_link hget hbranch, hleads.ledTo_eq, hvalue,
        ihRest hrestColumns howner hrestTables hpackedRest htail hbelow hrecord htailCells]
    | row _ _ hget hbranch _ hpackedBelow hpackedRest =>
      obtain ⟨inside, own, value, behind, tail, hinside, htail, rfl, rfl, target', hrelation,
        hown⟩ := Shape.inserts_row hget hbranch hinserts
      obtain rfl : target = target' := Option.some.inj (hleads.relation.symm.trans hrelation)
      obtain ⟨hvalue, htailCells⟩ := List.forall_mem_cons.1 hcells
      rw [List.forall_mem_append, List.forall_mem_append, List.forall_mem_singleton] at hbelow
      obtain ⟨⟨hbelowInside, hmem, hnodup⟩, hbelowBehind⟩ := hbelow
      have hinnerSame := ihInner (List.Subset.refl _) hfound hinnerTables hpackedBelow hinside
        hbelowInside hmem fun cell hcell => Record.value_of_mem hnodup hcell
      rw [Shape.unbrokenPack_row hget hbranch hinside hrelation hown, ← hinnerSame, hvalue,
        ihRest hrestColumns howner hrestTables hpackedRest htail hbelowBehind hrecord htailCells]
      by_cases hnull : value = .null
      · simp [hnull]
      · -- The row that was inserted below is the one that the value refers to.
        have hname : record.value source.name = value := hvalue
        have hled : store.matching found target.column value = [own] := by
          rw [← hname]
          refine matching_eq_of_mem hsatisfied howner (hcolumns List.mem_cons_self) hleads hrecord
            hmem (by rwa [hname]) ?_
          rw [hname, Record.value, hown, Option.getD_some]
        rw [hled, List.all_cons, List.all_nil, Bool.and_true]

end Schema

/-- **When created rows are answered.** After the batch of a new row has run on a store
with satisfied foreign keys, the new row of the root is the root part of a row that the
SELECT answers exactly when the joins reach no null from it. If the shape of the resource
loses nothing, these are the nulls that the body gives to foreign keys and those behind
its links. -/
theorem Resource.created_answered_iff {σ : Type} {draw : IdGenerator → StateM σ Json}
    {schema : Schema} {root : Table} {resource : Resource}
    (hcompile : compile schema root = .ok resource) {body pack : Entries Json} {start final : σ}
    (hpack : outcome (resource.newPack draw body) start = (.ok pack, final))
    {batch : List Insertion} (hbatch : resource.inserts pack = .ok batch) {before after : Store}
    (hbefore : schema.satisfied resource.tables before = true)
    (hrun : schema.run? resource.tables before batch = some after) :
    ∃ below cells, batch = below ++ [⟨resource.root.table, cells⟩] ∧ cells ∈ after.of root ∧
      (resource.Answered after cells ↔ resource.NeverNull after cells) ∧
      ((∀ table ∈ resource.tables, schema.KeysApart table) →
        (resource.Answered after cells ↔ resource.shape.unbrokenPack after pack = true)) := by
  obtain ⟨expansion, hexpands, hmounted, -⟩ := mounted_of_compile hcompile
  have hroot : resource.root = root.placedAt 0 := congrArg Mounted.root hmounted
  have htables := tables_cons hmounted
  have howner : (root.placedAt 0).table ∈ resource.tables := htables ▸ List.mem_cons_self
  have hothers : expansion.tables 0 1 ⊆ resource.tables := htables ▸ List.subset_cons_self _ _
  obtain ⟨hpacked, -⟩ := packed_newPack hcompile hpack
  obtain ⟨⟨below, cells⟩, hinserts, hbatch⟩ := ok_of_bind hbatch
  cases hbatch
  have hsatisfied := Schema.satisfied_run hbefore hrun
  obtain ⟨hstored, hnodup⟩ := Schema.mem_run hrun (List.mem_append_right below
    (List.mem_singleton.2 rfl))
  have hrecord : cells ∈ after.of root := by
    rw [hroot] at hstored
    exact hstored
  refine ⟨below, cells, rfl, hrecord, answered_iff_neverNull hcompile hsatisfied hrecord, ?_⟩
  intro hapart
  rw [shape_eq hmounted hexpands hapart] at hpacked hinserts ⊢
  have hsame := hexpands.unbroken_eq hsatisfied (List.Subset.refl _) howner hothers hpacked hinserts
    (fun insertion hinsertion => Schema.mem_run hrun (List.mem_append_left _ hinsertion)) hrecord
    (fun cell hcell => Record.value_of_mem hnodup hcell)
  rw [answered_iff_choices hmounted hrecord, ← hsame]
  exact hexpands.exists_choice_iff hsatisfied (List.Subset.refl _) howner hothers hrecord

/-! ## Orders of somebody and of nobody -/

/-- Orders may have a customer, and customers may live in a city. -/
def guestShop : Catalog where
  databases := ["shop"]
  tables := [("shop", "cities"), ("shop", "customers"), ("shop", "orders")]
  columns := [
    ⟨"shop", "cities", "id", "int(11)", false, "PRI", false⟩,
    ⟨"shop", "customers", "id", "int(11)", false, "PRI", false⟩,
    ⟨"shop", "customers", "city_id", "int(11)", true, "MUL", false⟩,
    ⟨"shop", "orders", "id", "int(11)", false, "PRI", false⟩,
    ⟨"shop", "orders", "customer_id", "int(11)", true, "MUL", false⟩]
  links := [⟨⟨"shop", "customers", "city_id"⟩, ⟨"shop", "cities", "id"⟩⟩,
    ⟨⟨"shop", "orders", "customer_id"⟩, ⟨"shop", "customers", "id"⟩⟩]

def guestSchema : Schema := guestShop.toSchema [] []

def guestTable : Table := (guestSchema.table? "shop.orders").getD default

def guestOrder : Resource :=
  (Resource.compile guestSchema guestTable).toOption.get (by decide +kernel)

theorem compile_guestTable : Resource.compile guestSchema guestTable = .ok guestOrder :=
  eq_ok_get _

/-- A store with a city and nothing else. -/
def oneCity : Store where
  rows
    | "shop", "cities" => [[("id", .int 7)]]
    | _, _ => []

/-- An order of a new customer, who lives in a city that is there already. -/
def orderOfSomebody : Entries Json :=
  [("id", .int 1), ("customer_id", .obj [("customer_id_city_id", .int 7)])]

def packOfSomebody : Entries Json :=
  [("shop.orders.id", .int 1), ("shop.orders.customer_id_branch",
    .obj [("shop.customers.id", .int 1000), ("shop.customers.city_id", .int 7)])]

def batchOfSomebody : List Insertion :=
  (guestOrder.inserts packOfSomebody).toOption.get (by decide +kernel)

/-- The store behind the batch. -/
def orderedBySomebody : Store :=
  (guestSchema.run? guestOrder.tables oneCity batchOfSomebody).get (by decide +kernel)

/-- The order is answered behind the batch that inserts it and its customer. -/
theorem order_of_somebody :
    Resource.compile guestSchema guestTable = .ok guestOrder ∧
      (∀ table ∈ guestOrder.tables, guestSchema.KeysApart table) ∧
      outcome (guestOrder.newPack counting orderOfSomebody) 1000 = (.ok packOfSomebody, 1001) ∧
      guestOrder.inserts packOfSomebody = .ok batchOfSomebody ∧
      guestSchema.satisfied guestOrder.tables oneCity = true ∧
      guestSchema.run? guestOrder.tables oneCity batchOfSomebody = some orderedBySomebody ∧
      batchOfSomebody.map (fun insertion => (insertion.table.name, insertion.cells)) =
        [("customers", [("id", .int 1000), ("city_id", .int 7)]),
          ("orders", [("id", .int 1), ("customer_id", .int 1000)])] ∧
      guestOrder.Answered orderedBySomebody [("id", .int 1), ("customer_id", .int 1000)] := by
  have hapart : ∀ table ∈ guestOrder.tables, guestSchema.KeysApart table := by decide +kernel
  have hpack : outcome (guestOrder.newPack counting orderOfSomebody) 1000 =
      (.ok packOfSomebody, 1001) := by decide +kernel
  have hbefore : guestSchema.satisfied guestOrder.tables oneCity = true := by decide +kernel
  have hrun : guestSchema.run? guestOrder.tables oneCity batchOfSomebody =
      some orderedBySomebody := Option.eq_some_of_isSome _
  have hrows : batchOfSomebody.map (fun insertion => (insertion.table.name, insertion.cells)) =
      [("customers", [("id", .int 1000), ("city_id", .int 7)]),
        ("orders", [("id", .int 1), ("customer_id", .int 1000)])] := by decide +kernel
  have hunbroken : guestOrder.shape.unbrokenPack orderedBySomebody packOfSomebody = true := by
    decide +kernel
  have hbatch : guestOrder.inserts packOfSomebody = .ok batchOfSomebody := eq_ok_get _
  obtain ⟨below, cells, heq, -, -, hanswered⟩ :=
    Resource.created_answered_iff compile_guestTable hpack hbatch hbefore hrun
  have hlast : cells = [("id", .int 1), ("customer_id", .int 1000)] := by
    have hends := congrArg List.getLast? hrows
    rw [heq, List.map_append, List.map_singleton, List.getLast?_concat] at hends
    exact (Prod.mk.inj (Option.some.inj hends)).2
  exact ⟨compile_guestTable, hapart, hpack, hbatch, hbefore, hrun, hrows,
    hlast ▸ (hanswered hapart).2 hunbroken⟩

/-- An order whose customer is given as null. -/
def orderOfNobody : Entries Json :=
  [("id", .int 1), ("customer_id", .null)]

def packOfNobody : Entries Json :=
  [("shop.orders.id", .int 1), ("shop.orders.customer_id", .null)]

def batchOfNobody : List Insertion :=
  (guestOrder.inserts packOfNobody).toOption.get (by decide +kernel)

/-- The store behind the batch. -/
def orderedByNobody : Store :=
  (guestSchema.run? guestOrder.tables oneCity batchOfNobody).get (by decide +kernel)

/-- The order is inserted, but no row that is answered shows it. -/
theorem order_of_nobody :
    Resource.compile guestSchema guestTable = .ok guestOrder ∧
      outcome (guestOrder.newPack counting orderOfNobody) 1000 = (.ok packOfNobody, 1000) ∧
      guestOrder.inserts packOfNobody = .ok batchOfNobody ∧
      guestSchema.satisfied guestOrder.tables oneCity = true ∧
      guestSchema.run? guestOrder.tables oneCity batchOfNobody = some orderedByNobody ∧
      orderedByNobody.of guestTable = [[("id", .int 1), ("customer_id", .null)]] ∧
      ¬ guestOrder.Answered orderedByNobody [("id", .int 1), ("customer_id", .null)] := by
  refine ⟨compile_guestTable, by decide +kernel, eq_ok_get _, by decide +kernel,
    Option.eq_some_of_isSome _, by decide +kernel, ?_⟩
  have hnothing : guestOrder.selected orderedByNobody = [] := by decide +kernel
  rintro ⟨choice, hchoice, -⟩
  rw [hnothing] at hchoice
  cases hchoice

end TableApi
