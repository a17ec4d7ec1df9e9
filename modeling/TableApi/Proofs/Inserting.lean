import TableApi.Catalog
import TableApi.Proofs.Inserting.Fresh

/-!
# Created rows refer to rows that are there

A row is created together with the rows it brings along, in one batch. The
question is whether every foreign key of the batch is satisfied when its statement
runs: by the client's own word, or by a row inserted before. `links_satisfied_iff`
answers it for every body and every source of identifiers.

The answer is yes unless an identifier strays (`Shape.strays`): the body leaves out
the referenced column of a nested row, the identifier drawn for it is written under
that column's display name, and a column of the nested row that is itself a foreign
key reads it there. A key that is also a foreign key does so (`orphaned_customer`).
-/

namespace TableApi

/-- **When created rows are linked.** A batch inserts the rows that the pack brings,
in their order. If no identifier strays, every foreign key with a branch holds the
client's own plain value or the value that an earlier statement gives to the column
it references. With fresh identifiers this is the only case in which it does. -/
theorem Resource.links_satisfied_iff {σ : Type} {draw : IdGenerator → StateM σ Json}
    {schema : Schema} {root : Table} {resource : Resource}
    (hcompile : compile schema root = .ok resource) {body pack : Entries Json} {start final : σ}
    (hpack : outcome (resource.newPack draw body) start = (.ok pack, final))
    {batch : List Insertion} (hbatch : resource.inserts pack = .ok batch) :
    List.Forall₂ Brought.SpelledBy (resource.brought body pack) batch ∧
      (resource.shape.strays body = false →
        Supported [] ((resource.brought body pack).zip batch)) ∧
      (Fresh draw start body → Supported [] ((resource.brought body pack).zip batch) →
        resource.shape.strays body = false) := by
  obtain ⟨hpacked, -⟩ := packed_newPack hcompile hpack
  obtain ⟨⟨below, cells⟩, hinserts, hbatch⟩ := ok_of_bind hbatch
  cases hbatch
  have hspelled := Shape.spelled_inserts hinserts body
  have hsame : resource.shape.ReadsAlike body body := fun _ _ _ => rfl
  have hzip : (resource.brought body pack).zip (below ++ [⟨resource.root.table, cells⟩]) =
      (resource.shape.brought body pack).zip below ++
        [(⟨resource.root, resource.shape, body⟩, ⟨resource.root.table, cells⟩)] := by
    rw [brought, List.zip_append hspelled.length_eq]
    rfl
  refine ⟨?_, ?_, ?_⟩
  · exact List.rel_append hspelled (.cons ⟨rfl, Shape.names_cells hinserts⟩ .nil)
  · intro hstrays
    rw [hzip, supported_append, List.map_snd_zip (Nat.le_of_eq hspelled.length_eq.symm)]
    refine ⟨hpacked.supported hinserts hsame hstrays [], ?_, True.intro⟩
    rintro ⟨⟨column, _⟩, cell⟩ hmem ⟨placed, inner⟩ rfl
    exact hpacked.linked hinserts hsame column placed inner cell hmem _ rfl
  · rintro ⟨used, hissuing, hbody⟩ hsupported
    rw [hzip, supported_append] at hsupported
    exact hpacked.not_strays hissuing hinserts hsame hbody (fun _ h => by cases h) hsupported.1

/-! ## Customers that are persons -/

/-- Customers are persons, so that a customer's key refers to a person; orders
refer to customers. -/
def customersArePersons : Catalog where
  databases := ["shop"]
  tables := [("shop", "persons"), ("shop", "customers"), ("shop", "orders")]
  columns := [
    ⟨"shop", "persons", "id", "int(11)", false, "PRI", false⟩,
    ⟨"shop", "customers", "id", "int(11)", false, "PRI", false⟩,
    ⟨"shop", "customers", "name", "varchar(64)", false, "", false⟩,
    ⟨"shop", "orders", "id", "int(11)", false, "PRI", false⟩,
    ⟨"shop", "orders", "customer_id", "int(11)", false, "MUL", false⟩]
  links := [⟨⟨"shop", "customers", "id"⟩, ⟨"shop", "persons", "id"⟩⟩,
    ⟨⟨"shop", "orders", "customer_id"⟩, ⟨"shop", "customers", "id"⟩⟩]

def orderTable : Table :=
  ((customersArePersons.toSchema [] []).table? "shop.orders").getD default

def orderResource : Resource :=
  (Resource.compile (customersArePersons.toSchema [] []) orderTable).toOption.get
    (by decide +kernel)

theorem compile_orderTable :
    Resource.compile (customersArePersons.toSchema [] []) orderTable = .ok orderResource :=
  eq_ok_get _

/-- Identifiers that count up. -/
def counting : IdGenerator → StateM Int Json :=
  fun _ next => (.int next, next + 1)

theorem fresh_counting {start : Int} {body : Entries Json}
    (h : ∀ n, Occurs (.int n) body → n < start) : Fresh counting start body := by
  refine ⟨fun next value => ∀ n, value = .int n → n < next, ⟨?_, ?_, ?_, ?_⟩, ?_⟩
  · intro ids before id after hdraw hused
    cases hdraw
    exact absurd (hused before rfl) (Int.lt_irrefl before)
  · intro ids before id after hdraw
    cases hdraw
    rfl
  · intro ids before id after hdraw n hn
    cases hdraw
    cases hn
    exact Int.lt_add_one_of_le (Int.le_refl before)
  · intro ids before id after hdraw value hused n hn
    cases hdraw
    exact Int.lt_add_one_of_le (Int.le_of_lt (hused n hn))
  · intro value hoccurs n hn
    exact h n (hn ▸ hoccurs)

/-- An order of a new customer, whose person is asked for. -/
def orderWithPerson : Entries Json :=
  [("id", .int 1), ("customer_id", .obj [("customer_id_id", .obj []),
    ("customer_id_name", .str "Ann")])]

/-- An order of a new customer of whom nothing but the name is said. -/
def orderWithoutPerson : Entries Json :=
  [("id", .int 1), ("customer_id", .obj [("customer_id_name", .str "Ann")])]

/-- Where the person is asked for, all three rows are inserted and linked. -/
theorem linked_customer :
    ∃ pack batch, Resource.compile (customersArePersons.toSchema [] []) orderTable =
        .ok orderResource ∧
      Fresh counting 1000 orderWithPerson ∧
      outcome (orderResource.newPack counting orderWithPerson) 1000 = (.ok pack, 1001) ∧
      orderResource.inserts pack = .ok batch ∧
      batch.map (fun insertion => insertion.table.name) = ["persons", "customers", "orders"] ∧
      Supported [] ((orderResource.brought orderWithPerson pack).zip batch) := by
  let pack : Entries Json := [("shop.orders.id", .int 1), ("shop.orders.customer_id_branch",
    .obj [("shop.customers.id_branch", .obj [("shop.persons.id", .int 1000)]),
      ("shop.customers.name", .str "Ann")])]
  have hpack : outcome (orderResource.newPack counting orderWithPerson) 1000 = (.ok pack, 1001) := by
    decide +kernel
  have hbatch := eq_ok_get (x := orderResource.inserts pack) (by decide +kernel)
  have hfresh : Fresh counting 1000 orderWithPerson := by
    refine fresh_counting ?_
    rintro n ⟨entry, hentry, hwithin⟩
    simp only [orderWithPerson, List.mem_cons, List.not_mem_nil, or_false] at hentry
    rcases hentry with rfl | rfl
    · cases hwithin
      decide
    · obtain _ | ⟨hmem, hwithin⟩ := hwithin
      simp only [List.mem_cons, Prod.mk.injEq, List.not_mem_nil, or_false] at hmem
      rcases hmem with ⟨-, rfl⟩ | ⟨-, rfl⟩
      · obtain _ | ⟨hmem, -⟩ := hwithin
        cases hmem
      · cases hwithin
  refine ⟨pack, _, compile_orderTable, hfresh, hpack, hbatch, by decide +kernel, ?_⟩
  exact (Resource.links_satisfied_iff compile_orderTable hpack hbatch).2.1 (by decide +kernel)

/-- Where it is not, the identifier drawn for the customer is bound to the
customer's link to a person, and no person is inserted. -/
theorem orphaned_customer :
    ∃ pack batch, Resource.compile (customersArePersons.toSchema [] []) orderTable =
        .ok orderResource ∧
      outcome (orderResource.newPack counting orderWithoutPerson) 1000 = (.ok pack, 1001) ∧
      orderResource.inserts pack = .ok batch ∧
      batch.map (fun insertion => insertion.table.name) = ["customers", "orders"] ∧
      ¬ Supported [] ((orderResource.brought orderWithoutPerson pack).zip batch) := by
  let pack : Entries Json := [("shop.orders.id", .int 1), ("shop.orders.customer_id_branch",
    .obj [("shop.customers.id", .int 1000), ("shop.customers.name", .str "Ann")])]
  have hbatch := eq_ok_get (x := orderResource.inserts pack) (by decide +kernel)
  exact ⟨pack, _, compile_orderTable, by decide +kernel, hbatch, by decide +kernel,
    by decide +kernel⟩

end TableApi
