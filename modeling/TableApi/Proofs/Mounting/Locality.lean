import Mathlib.Data.List.Find
import TableApi.Proofs.Expansion
import TableApi.Proofs.Mounting.Trimming

/-!
# What a resource depends on

Mounting begins at a root table and follows relations, so it looks up few tables of a schema:
those that can be reached from the root along relations of columns that are not excluded
(`Schema.Reaches`). Schemas that agree on the tables that are looked up from a root, and on
whether their databases are excluded, compile the root alike, to the same resource or the
same fault. Whatever else is in a schema can be added, taken away, reordered or changed
(`Resource.compile_local`).

That two schemas agree is the case of `Trim.Carries` in which nothing is trimmed.
-/

namespace TableApi

/-! ## Trimming nothing -/

namespace Trim

/-- The trim that takes nothing away. -/
def nothing : Trim where
  relation := id
  columns := id

mutual

theorem slot_nothing : ∀ slot : Slot, nothing.slot slot = slot
  | .column _ => rfl
  | .branch placed entries => by
    rw [slot, slots_nothing entries]
    rfl

theorem slots_nothing : ∀ entries : List (String × Slot), nothing.slots entries = entries
  | [] => rfl
  | (key, entry) :: rest => by
    rw [slots, slot_nothing entry, slots_nothing rest]

end

theorem resource_nothing (resource : Resource) : nothing.resource resource = resource := by
  have htables : resource.below.map nothing.table = resource.below := List.map_id _
  unfold Trim.resource Trim.mounted
  rw [slots_nothing, htables]
  rfl

end Trim

namespace Schema

variable {schema other : Schema} {root : Table}

/-! ## What is reached -/

/-- Whether the database that a table is in is excluded. -/
def shutsDatabase (schema : Schema) (table : Table) : Bool :=
  (schema.database? table.database).any fun database => database.policy.excluded

/-- The tables that can be reached from a root along relations of columns that are not
excluded. -/
inductive Reaches (schema : Schema) (root : Table) : Table → Prop
  | root : Reaches schema root root
  | follow {table column target found} (h : Reaches schema root table)
      (hcolumn : column ∈ table.visibleColumns) (hrelation : column.relation = some target)
      (hfound : schema.table? target.tablePath = some found) : Reaches schema root found

/-- The paths that are looked up from a root: its own and those that relations lead to. -/
inductive LooksUp (schema : Schema) (root : Table) : String → Prop
  | root : LooksUp schema root root.qualifiedName
  | relation {table column target} (h : schema.Reaches root table)
      (hcolumn : column ∈ table.visibleColumns) (hrelation : column.relation = some target) :
      LooksUp schema root target.tablePath

/-- A closed set of tables holds all that is reached from any of them. -/
theorem Reaches.mem_of_closed {tables : List Table} (hroot : root ∈ tables)
    (hclosed : ∀ table ∈ tables, ∀ column ∈ table.visibleColumns, ∀ target ∈ column.relation,
      ∀ found ∈ schema.table? target.tablePath, found ∈ tables) {table : Table}
    (h : schema.Reaches root table) : table ∈ tables := by
  induction h with
  | root => exact hroot
  | follow _ hcolumn hrelation hfound ih => exact hclosed _ ih _ hcolumn _ hrelation _ hfound

/-- Another schema finds the same tables under the paths that are looked up from a root, and
has the databases of what is reached excluded or not as they are. -/
structure AgreesFrom (schema other : Schema) (root : Table) : Prop where
  found : ∀ path, schema.LooksUp root path → other.table? path = schema.table? path
  shut : ∀ table, schema.Reaches root table →
    other.shutsDatabase table = schema.shutsDatabase table

/-- Relations lead to the same tables in schemas that agree. -/
theorem AgreesFrom.liveTarget?_eq (h : schema.AgreesFrom other root) {table : Table}
    (htable : schema.Reaches root table) {column : Column} (hcolumn : column ∈ table.visibleColumns) :
    other.liveTarget? column = schema.liveTarget? column := by
  unfold liveTarget?
  cases hrelation : column.relation with
  | none => rfl
  | some target =>
    dsimp only
    rw [h.found _ (.relation htable hcolumn hrelation)]
    cases hfound : schema.table? target.tablePath with
    | none => rfl
    | some found =>
      have hshut := h.shut found (htable.follow hcolumn hrelation hfound)
      unfold shutsDatabase at hshut
      dsimp only
      rw [hshut]

/-- What is reached is carried over untrimmed to a schema that agrees. -/
theorem AgreesFrom.carries (h : schema.AgreesFrom other root) :
    Trim.nothing.Carries schema other (schema.Reaches root) where
  columns table _ := (List.map_id _).symm
  live table htable column hcolumn := by
    show other.liveTarget? column = _
    rw [h.liveTarget?_eq htable hcolumn]
    cases schema.liveTarget? column with
    | error fault => rfl
    | ok live => cases live <;> rfl
  closed table htable column hcolumn found referenced hlive := by
    obtain ⟨target, hleads, -⟩ := liveTarget?_eq_some_iff.1 hlive
    exact htable.follow hcolumn hleads.relation hleads.found

end Schema

/-! ## Changes elsewhere -/

/-- What is found in two lists that are related item by item is related. -/
theorem rel_find? {α β : Type} {r : α → β → Prop} (fits : α → Bool) (fits' : β → Bool)
    (hfits : ∀ item other, r item other → fits item = fits' other) {items : List α}
    {others : List β} (h : List.Forall₂ r items others) :
    Option.Rel (fun item other => r item other ∧ fits item = true) (items.find? fits)
      (others.find? fits') := by
  induction h with
  | nil => exact .none
  | @cons item other rest rest' hr _ ih =>
    have hsame := hfits item other hr
    cases hitem : fits item with
    | true =>
      rw [List.find?_cons_of_pos hitem, List.find?_cons_of_pos (hsame ▸ hitem)]
      exact .some ⟨hr, hitem⟩
    | false =>
      rw [List.find?_cons_of_neg (by simp [hitem]), List.find?_cons_of_neg (by simp [← hsame, hitem])]
      exact ih

/-- Two databases differ at most in tables whose paths are not near: their names and their
exclusion are the same, and so are the tables at near paths, in order. -/
structure Database.SameNear (near : String → Bool) (database other : Database) : Prop where
  name : database.name = other.name
  excluded : database.policy.excluded = other.policy.excluded
  tables : (database.tables.filter fun table => near (database.name ++ "." ++ table.name)) =
    other.tables.filter fun table => near (other.name ++ "." ++ table.name)

/-- A table at a near path is found among those at near paths. -/
theorem Database.table?_filter_near {near : String → Bool} {database : Database} {name : String}
    (hnear : near (database.name ++ "." ++ name) = true) :
    (database.tables.filter fun table => near (database.name ++ "." ++ table.name)).find?
      (fun table => table.name == name) = database.table? name := by
  rw [List.find?_filter, Database.table?]
  refine List.find?_congr fun table _ => ?_
  by_cases hname : table.name = name
  · simp [hname, hnear]
  · simp [hname]

theorem Database.SameNear.table?_eq {near : String → Bool} {database other : Database}
    (h : database.SameNear near other) {name : String}
    (hnear : near (database.name ++ "." ++ name) = true) :
    other.table? name = database.table? name := by
  rw [← table?_filter_near hnear, h.tables, table?_filter_near (h.name ▸ hnear)]

namespace Schema

variable {schema other : Schema} {root : Table} {near : String → Bool}

/-- Two schemas have the same databases in the same order, and these differ at most in tables
whose paths are not near. -/
def SameNear (near : String → Bool) (schema other : Schema) : Prop :=
  List.Forall₂ (Database.SameNear near) schema.databases other.databases

theorem SameNear.database? (h : schema.SameNear near other) (name : String) :
    Option.Rel (fun found found' => found.SameNear near found' ∧ found.name = name)
      (schema.database? name) (other.database? name) := by
  have hrel := rel_find? (fun database => database.name == name)
    (fun database => database.name == name) (fun _ _ hsame => by rw [hsame.name]) h
  simp only [beq_iff_eq] at hrel
  exact hrel

/-- The table at a near path is the same. -/
theorem SameNear.table?_eq (h : schema.SameNear near other) {path : String}
    (hnear : near path = true) : other.table? path = schema.table? path := by
  unfold table?
  cases hcut : Text.cutFirst '.' path with
  | none => rfl
  | some words =>
    obtain ⟨database, name⟩ := words
    have hpath : path = database ++ "." ++ name := by
      rw [← String.toList_inj, (Text.eq_of_cutFirst hcut).1]
      simp [String.toList_append]
    show (other.database? database).bind (fun found => found.table? name) =
      (schema.database? database).bind fun found => found.table? name
    have hrel := h.database? database
    generalize schema.database? database = found, other.database? database = found' at hrel
    cases hrel with
    | none => rfl
    | some hfound =>
      obtain ⟨hsame, rfl⟩ := hfound
      exact hsame.table?_eq (hpath ▸ hnear)

theorem SameNear.shutsDatabase_eq (h : schema.SameNear near other) (table : Table) :
    other.shutsDatabase table = schema.shutsDatabase table := by
  unfold shutsDatabase
  have hrel := h.database? table.database
  generalize schema.database? table.database = found,
    other.database? table.database = found' at hrel
  cases hrel with
  | none => rfl
  | some hfound => exact hfound.1.excluded.symm

/-- Where every path that is looked up is near, changes elsewhere are not seen. -/
theorem SameNear.agreesFrom (h : schema.SameNear near other)
    (hnear : ∀ path, schema.LooksUp root path → near path = true) :
    schema.AgreesFrom other root where
  found path hpath := h.table?_eq (hnear path hpath)
  shut table _ := h.shutsDatabase_eq table

end Schema

namespace Resource

variable {schema other : Schema} {root : Table}

theorem compile_eq_of_agreesFrom (h : schema.AgreesFrom other root) :
    compile other root = compile schema root := by
  have hfound := congrArg Option.isSome (h.found _ .root)
  have hcompile := h.carries.compile_eq .root hfound
  have hnothing : Trim.nothing.resource = id := funext Trim.resource_nothing
  rw [hnothing, Except.map_id] at hcompile
  exact hcompile

/-- **Compilation is local.** Two schemas compile a root to the same resource or to the same
fault if they find the same tables from it, in databases that are excluded or not in both. So
where all paths that are looked up from the root are near, tables at other paths can be added,
taken away, reordered and changed. -/
theorem compile_local (schema other : Schema) (root : Table) :
    (schema.AgreesFrom other root → compile other root = compile schema root) ∧
    ∀ near : String → Bool, (∀ path, schema.LooksUp root path → near path = true) →
      schema.SameNear near other → compile other root = compile schema root :=
  ⟨compile_eq_of_agreesFrom, fun _ hnear hsame => compile_eq_of_agreesFrom (hsame.agreesFrom hnear)⟩

end Resource

/-! ## A shop that grows -/

/-- Customers are persons. -/
def personsTable : Table :=
  .ofColumns "shop" "persons" [
    { Column.ofType "shop" "persons" "id" "int(11)" with keyRole := .primary }]

def customersTable : Table :=
  .ofColumns "shop" "customers" [
    (Column.ofType "shop" "customers" "id" "int(11)").references ⟨"shop", "persons", "id"⟩,
    .ofType "shop" "customers" "name" "varchar(64)"]

/-- A table of the shop that leads to the customers. -/
def ofCustomers (name : String) (columns : List Column) : Table :=
  .ofColumns "shop" name
    ((Column.ofType "shop" name "customer_id" "int(11)").references ⟨"shop", "customers", "id"⟩ ::
      columns)

/-- A shop of customers, whose orders and carts refer to them. -/
def smallShop : Schema where
  databases := [{
    name := "shop"
    policy := .openTo "shop"
    tables := [ofCustomers "orders" [], customersTable, ofCustomers "carts" [], personsTable] }]

/-- The same shop with other orders, without carts and with invoices. -/
def grownShop : Schema where
  databases := [{
    name := "shop"
    policy := .openTo "shop"
    tables := [customersTable, ofCustomers "invoices" [], personsTable,
      ofCustomers "orders" [.ofType "shop" "orders" "note" "text"]] }]

/-- The paths that are looked up from the customers. -/
def nearCustomers (path : String) : Bool :=
  path == "shop.customers" || path == "shop.persons"

/-- A database of staff beside the grown shop. -/
def grownCompany : Schema where
  databases := { name := "staff", policy := .openTo "staff", tables := [] } :: grownShop.databases

theorem mem_of_reaches {table : Table} (h : smallShop.Reaches customersTable table) :
    table ∈ [customersTable, personsTable] :=
  h.mem_of_closed List.mem_cons_self (by decide +kernel)

theorem near_of_looksUp {path : String} (h : smallShop.LooksUp customersTable path) :
    nearCustomers path = true := by
  cases h with
  | root => decide +kernel
  | @relation table column target h hcolumn hrelation =>
    have hnear : ∀ table ∈ [customersTable, personsTable], ∀ column ∈ table.visibleColumns,
        ∀ target ∈ column.relation, nearCustomers target.tablePath = true := by decide +kernel
    exact hnear table (mem_of_reaches h) column hcolumn target hrelation

theorem agreesFrom_grownCompany : smallShop.AgreesFrom grownCompany customersTable where
  found path hpath := by
    have hnear := near_of_looksUp hpath
    simp only [nearCustomers, Bool.or_eq_true, beq_iff_eq] at hnear
    rcases hnear with rfl | rfl <;> decide +kernel
  shut table htable := by
    have hshut : ∀ table ∈ [customersTable, personsTable],
        grownCompany.shutsDatabase table = smallShop.shutsDatabase table := by decide +kernel
    exact hshut table (mem_of_reaches htable)

/-- The customers are the same resource throughout, joined with their persons, though other
tables are changed, taken away and added. -/
theorem customers_compiled_alike :
    smallShop.AgreesFrom grownCompany customersTable ∧
      smallShop.SameNear nearCustomers grownShop ∧
      grownShop.table? "shop.orders" ≠ smallShop.table? "shop.orders" ∧
      (grownShop.table? "shop.carts").isNone ∧ (smallShop.table? "shop.invoices").isNone ∧
      Resource.compile grownCompany customersTable = Resource.compile smallShop customersTable ∧
      Resource.compile grownShop customersTable = Resource.compile smallShop customersTable ∧
      ((Resource.compile smallShop customersTable).map fun resource =>
        resource.columns.map (·.displayName.primary)) = .ok ["id_id", "name"] := by
  have hsame : smallShop.SameNear nearCustomers grownShop :=
    .cons ⟨rfl, rfl, by decide +kernel⟩ .nil
  have hcompany := (Resource.compile_local smallShop grownCompany customersTable).1
    agreesFrom_grownCompany
  have hshop := (Resource.compile_local smallShop grownShop customersTable).2 nearCustomers
    (fun _ => near_of_looksUp) hsame
  exact ⟨agreesFrom_grownCompany, hsame, by decide +kernel, by decide +kernel, by decide +kernel,
    hcompany, hshop, by decide +kernel⟩

end TableApi
