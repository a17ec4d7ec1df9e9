import TableApi.Api
import TableApi.Proofs.Introspection.Aliases
import TableApi.Proofs.Mounting

/-!
# Which resource a name means

A resource answers to its own name, to the path of its root table and to the aliases of
that table. A resource's own name goes first: an alias that is the name of another
resource means that one. Otherwise the first resource that answers is meant, and under
accepted settings no other answers to an alias (`names_resolve`).

Names of resources are not unique by themselves, because dots become underscores, and
nothing keeps an alias from being the path of another table. Both are conditions here.
-/

namespace TableApi

/-- Dots do not stand in the name of a resource. -/
theorem Table.dot_not_mem_resourceName (table : Table) : '.' ∉ table.resourceName.toList := by
  unfold resourceName Text.replaceChar
  rw [String.toList_ofList, List.mem_flatMap]
  rintro ⟨c, -, hc⟩
  split at hc
  · simp at hc
  · next hdot => exact hdot (List.mem_singleton.1 hc).symm

theorem Table.NamedBy.dot_mem_path {aliases : Entries (List String)} {database : String}
    {table : Table} (h : table.NamedBy aliases database) : '.' ∈ table.qualifiedName.toList := by
  rw [h.path]
  simp [String.toList_append]

namespace Resource

variable {schema : Schema} {root : Table} {resource : Resource}

/-- The root of a compiled resource is named as the table is. -/
theorem namedBy_root (hcompile : compile schema root = .ok resource)
    {aliases : Entries (List String)} {database : String} (h : root.NamedBy aliases database) :
    resource.root.table.NamedBy aliases database := by
  obtain ⟨-, -, _, _, -, -, hmounted⟩ := Schema.mountTable_ok (mountTable_of_compile hcompile)
  rw [hmounted]
  exact ⟨h.owner, h.path, h.primary, h.listed⟩

/-- A name means a resource as its own name, as its path or as one of its aliases. -/
theorem answersTo_iff {name : String} : resource.answersTo name = true ↔
    resource.name = name ∨ name = resource.root.table.displayName.primary ∨
      name ∈ resource.root.table.displayName.aliases := by
  rw [answersTo, Bool.or_eq_true, beq_iff_eq, Name.matchesText_iff]

end Resource

/-- The resources of an introspected schema are named by its aliases. -/
theorem Schema.namedBy_of_mem_resources {catalog : Catalog} {policies : List AccessPolicy}
    {aliases : Entries (List String)} {resources : List Resource}
    (hresources : (catalog.toSchema policies aliases).resources = .ok resources)
    {resource : Resource} (hmem : resource ∈ resources) :
    ∃ database, resource.root.table.NamedBy aliases database := by
  obtain ⟨root, hroot, hcompile⟩ := compile_of_mem_resources hresources hmem
  obtain ⟨database, hdatabase, htable⟩ := List.mem_flatMap.1 hroot
  have hnamed := Catalog.namedBy_toSchema catalog policies aliases database
    (List.mem_of_mem_filter hdatabase) root (List.mem_of_mem_filter htable)
  exact ⟨database.name, Resource.namedBy_root hcompile hnamed⟩

/-- A resource is told apart from the others: no other has its name, and neither is the path
of one table an alias of the other. -/
structure Resource.ToldApart (resource : Resource) (resources : List Resource) : Prop where
  name : ∀ other ∈ resources, other.name = resource.name → other = resource
  path : ∀ other ∈ resources,
    resource.root.table.qualifiedName ∈ other.root.table.displayName.aliases →
      other.root.table.qualifiedName = resource.root.table.qualifiedName
  aliases : ∀ other ∈ resources,
    other.root.table.qualifiedName ∈ resource.root.table.displayName.aliases →
      other.root.table.qualifiedName = resource.root.table.qualifiedName

namespace Api

variable {settings : Settings} {catalog : Catalog} {resources : List Resource}
  {resource other : Resource}

/-- The path or an alias of a resource that is told apart means no other resource. -/
theorem eq_of_matches (hvalid : settings.validate = .ok ())
    (hresources : (catalog.toSchema settings.policies settings.aliases).resources = .ok resources)
    (hapart : resource.ToldApart resources) (hmem : resource ∈ resources)
    (hother : other ∈ resources) {text : String}
    (htext : resource.root.table.displayName.matchesText text = true)
    (htext' : other.root.table.displayName.matchesText text = true) : other = resource := by
  obtain ⟨database, hnamed⟩ := Schema.namedBy_of_mem_resources hresources hmem
  obtain ⟨database', hnamed'⟩ := Schema.namedBy_of_mem_resources hresources hother
  suffices h : other.root.table.qualifiedName = resource.root.table.qualifiedName by
    apply hapart.name other hother
    rw [Resource.name, Resource.name, Table.resourceName, Table.resourceName, h]
  rw [Name.matchesText_iff, hnamed.primary] at htext
  rw [Name.matchesText_iff, hnamed'.primary] at htext'
  rcases htext with rfl | halias <;> rcases htext' with hpath | halias'
  · exact hpath.symm
  · exact hapart.path other hother halias'
  · subst hpath
    exact hapart.aliases other hother halias
  · exact Settings.same_table_of_alias hvalid hnamed' hnamed halias' halias

/-- A name that a resource answers to means this resource or one whose own name it is. -/
theorem resource_of_answersTo (hvalid : settings.validate = .ok ())
    (hresources : (catalog.toSchema settings.policies settings.aliases).resources = .ok resources)
    (hapart : resource.ToldApart resources) (pageLimit : Nat) (hmem : resource ∈ resources)
    {name : String} (hanswers : resource.answersTo name = true) :
    (⟨resources, pageLimit⟩ : Api).resource name = .ok resource ∨
      ∃ other ∈ resources, other.name = name ∧
        (⟨resources, pageLimit⟩ : Api).resource name = .ok other := by
  unfold Api.resource
  cases hexact : resources.find? fun other => other.name == name with
  | some other =>
    have hown := List.find?_some hexact
    exact .inr ⟨other, List.mem_of_find?_eq_some hexact, eq_of_beq hown, rfl⟩
  | none =>
    left
    -- Nobody has the name for its own, so whoever answers shows under it.
    have hshows : ∀ other ∈ resources, other.answersTo name = true →
        other.root.table.displayName.matchesText name = true := by
      intro other hother hanswer
      rw [Resource.answersTo, Bool.or_eq_true] at hanswer
      exact hanswer.resolve_left (List.find?_eq_none.1 hexact other hother)
    cases hfirst : resources.find? fun other => other.answersTo name with
    | none => exact absurd hanswers (List.find?_eq_none.1 hfirst resource hmem)
    | some other =>
      have hother := List.mem_of_find?_eq_some hfirst
      have hanswer := List.find?_some hfirst
      have hsame : other = resource := eq_of_matches hvalid hresources hapart hmem hother
        (hshows resource hmem hanswers) (hshows other hother hanswer)
      rw [hsame]

/-- **Resources answer to their names.** Under accepted settings, whatever name a resource
answers to means this resource, unless it is an alias that is the name of another resource;
then it means that one. So the resource is found under its name and its path. This is said
of a resource that is told apart from the others. -/
theorem names_resolve (hvalid : settings.validate = .ok ())
    (hresources : (catalog.toSchema settings.policies settings.aliases).resources = .ok resources)
    (hapart : resource.ToldApart resources) (pageLimit : Nat) (hmem : resource ∈ resources) :
    (∀ name, resource.answersTo name = true →
      (⟨resources, pageLimit⟩ : Api).resource name = .ok resource ∨
      name ∈ resource.root.table.displayName.aliases ∧ ∃ other ∈ resources,
        other.name = name ∧ other.name ≠ resource.name ∧
        (⟨resources, pageLimit⟩ : Api).resource name = .ok other) ∧
    (⟨resources, pageLimit⟩ : Api).resource resource.name = .ok resource ∧
    (⟨resources, pageLimit⟩ : Api).resource resource.root.table.qualifiedName = .ok resource := by
  have hmeans := @resource_of_answersTo settings catalog resources resource hvalid hresources
    hapart pageLimit hmem
  obtain ⟨database, hnamed⟩ := Schema.namedBy_of_mem_resources hresources hmem
  have hpath : ∀ other : Resource, other.name ≠ resource.root.table.qualifiedName := by
    intro other hsame
    apply other.root.table.dot_not_mem_resourceName
    rw [Resource.name] at hsame
    rw [hsame]
    exact hnamed.dot_mem_path
  refine ⟨?_, ?_, ?_⟩
  · intro name hanswers
    rcases hmeans hanswers with h | ⟨other, hother, rfl, h⟩
    · exact .inl h
    · by_cases hsame : other.name = resource.name
      · obtain rfl := hapart.name other hother hsame
        exact .inl h
      · refine .inr ⟨?_, other, hother, rfl, hsame, h⟩
        rcases Resource.answersTo_iff.1 hanswers with hown | hprimary | halias
        · exact absurd hown.symm hsame
        · exact absurd (hprimary.trans hnamed.primary) (hpath other)
        · exact halias
  · rcases hmeans (Resource.answersTo_iff.2 (.inl rfl)) with h | ⟨other, hother, hsame, h⟩
    · exact h
    · obtain rfl := hapart.name other hother hsame
      exact h
  · rcases hmeans (Resource.answersTo_iff.2 (.inr (.inl hnamed.primary.symm))) with
      h | ⟨other, -, hsame, -⟩
    · exact h
    · exact absurd hsame (hpath other)

end Api

/-! ## Customers under other names -/

def customerCatalog : Catalog where
  databases := ["shop", "shop_x"]
  tables := [("shop", "customers"), ("shop", "orders"), ("shop", "x_items"), ("shop_x", "items")]
  columns := [
    ⟨"shop", "customers", "id", "int(11)", false, "PRI", false⟩,
    ⟨"shop", "orders", "id", "int(11)", false, "PRI", false⟩,
    ⟨"shop", "x_items", "id", "int(11)", false, "PRI", false⟩,
    ⟨"shop_x", "items", "id", "int(11)", false, "PRI", false⟩]

/-- Settings that give aliases to the customers. -/
def customerSettings (aliases : List String) : Settings where
  connection := { provider := "mysql", host := some "localhost", username := some "root" }
  aliases := [("shop.customers", aliases)]

/-- Settings under which customers are also buyers and, by mistake, orders. -/
def buyersSettings : Settings :=
  customerSettings ["buyers", "shop_orders"]

def buyersResources : List Resource :=
  (customerCatalog.toSchema buyersSettings.policies buyersSettings.aliases).resources.toOption.get
    (by decide +kernel)

/-- Customers are found as buyers, under their name and under their path. -/
theorem buyers_found :
    buyersSettings.validate = .ok () ∧
      (customerCatalog.toSchema buyersSettings.policies buyersSettings.aliases).resources =
        .ok buyersResources ∧
      ∃ customers ∈ buyersResources, customers.ToldApart buyersResources ∧
        customers.root.table.qualifiedName = "shop.customers" ∧
        (⟨buyersResources, 0⟩ : Api).resource "buyers" = .ok customers ∧
        (⟨buyersResources, 0⟩ : Api).resource "shop_customers" = .ok customers ∧
        (⟨buyersResources, 0⟩ : Api).resource "shop.customers" = .ok customers := by
  have hvalid : buyersSettings.validate = .ok () := by decide +kernel
  have hresources : (customerCatalog.toSchema buyersSettings.policies
      buyersSettings.aliases).resources = .ok buyersResources := eq_ok_get _
  have hpaths : ∀ one ∈ buyersResources, ∀ other ∈ buyersResources,
      other.root.table.qualifiedName ∉ one.root.table.displayName.aliases := by decide +kernel
  have hfirst : buyersResources.head?.map (fun customers =>
      (customers.name, customers.root.table.qualifiedName, customers.answersTo "buyers")) =
        some ("shop_customers", "shop.customers", true) := by decide +kernel
  have hothers : ∀ other ∈ buyersResources.tail, other.name ≠ "shop_customers" := by decide +kernel
  have hbuyers : ∀ other ∈ buyersResources, other.name ≠ "buyers" := by decide +kernel
  obtain ⟨customers, rest, hsplit⟩ :=
    List.exists_cons_of_ne_nil (by decide +kernel : buyersResources ≠ [])
  rw [hsplit, List.head?_cons, Option.map_some] at hfirst
  simp only [Option.some.injEq, Prod.mk.injEq] at hfirst
  obtain ⟨hname, hpath, hanswers⟩ := hfirst
  rw [hsplit, List.tail_cons] at hothers
  have hmem : customers ∈ buyersResources := hsplit ▸ List.mem_cons_self
  have hapart : customers.ToldApart buyersResources := by
    refine ⟨?_, fun other hother h => absurd h (hpaths other hother customers hmem),
      fun other hother h => absurd h (hpaths customers hmem other hother)⟩
    intro other hother hsame
    rw [hsplit] at hother
    rcases List.mem_cons.1 hother with rfl | hother
    · rfl
    · exact absurd (hsame.trans hname) (hothers other hother)
  obtain ⟨hmeans, hown, hroot⟩ := Api.names_resolve hvalid hresources hapart 0 hmem
  refine ⟨hvalid, hresources, customers, hmem, hapart, hpath, ?_, hname ▸ hown, hpath ▸ hroot⟩
  rcases hmeans "buyers" hanswers with h | ⟨-, other, hother, hsame, -, -⟩
  · exact h
  · exact absurd hsame (hbuyers other hother)

/-- Settings under which customers have the name and the path of orders for aliases. -/
def ordersSettings : Settings :=
  customerSettings ["shop.orders", "shop_orders"]

def ordersResources : List Resource :=
  (customerCatalog.toSchema ordersSettings.policies ordersSettings.aliases).resources.toOption.get
    (by decide +kernel)

/-- An alias of the customers means the orders, the path of the orders means the customers,
and of two tables with one name only the first is found under it. -/
theorem customers_taken_for_orders :
    ordersSettings.validate = .ok () ∧ customerCatalog.tables.Nodup ∧
      (customerCatalog.toSchema ordersSettings.policies ordersSettings.aliases).resources =
        .ok ordersResources ∧
      ¬ (ordersResources.map Resource.name).Nodup ∧
      ∀ row ∈ [("shop_orders", "shop.customers", "shop.orders"),
          ("shop.orders", "shop.orders", "shop.customers"),
          ("shop_x_items", "shop_x.items", "shop.x_items")],
        (∃ resource ∈ ordersResources, resource.root.table.qualifiedName = row.2.1 ∧
          resource.answersTo row.1 = true) ∧
        ((⟨ordersResources, 0⟩ : Api).resource row.1).toOption.map
          (fun resource => resource.root.table.qualifiedName) = some row.2.2 := by
  exact ⟨by decide +kernel, by decide +kernel, eq_ok_get _, by decide +kernel, by decide +kernel⟩

end TableApi
