import TableApi.Proofs.Introspection.Relations

/-!
# The order of foreign keys

Foreign keys of different columns can be set in either order (`Schema.updateColumn_comm`).
Two of the same column cannot: the last one stays. So a catalog gives the same schema for
every order of its foreign keys exactly if those of one column that take effect lead to one
column (`Catalog.linkOrder_free_iff`).
-/

namespace TableApi

section UpdateFirst

variable {α : Type} {fits fits' : α → Bool} {change change' : α → α}

theorem updateFirst_cons_of_pos {first : α} (h : fits first = true) (change : α → α)
    (rest : List α) : updateFirst fits change (first :: rest) = change first :: rest :=
  if_pos h

theorem updateFirst_cons_of_neg {first : α} (h : fits first = false) (change : α → α)
    (rest : List α) :
    updateFirst fits change (first :: rest) = first :: updateFirst fits change rest :=
  if_neg (ne_true_of_eq_false h)

/-- Two changes commute that do so on a thing that both are meant for. -/
theorem updateFirst_comm (hfits : ∀ item, fits (change' item) = fits item)
    (hfits' : ∀ item, fits' (change item) = fits' item)
    (hcomm : ∀ item, fits item = true → fits' item = true →
      change (change' item) = change' (change item)) (items : List α) :
    updateFirst fits change (updateFirst fits' change' items) =
      updateFirst fits' change' (updateFirst fits change items) := by
  induction items with
  | nil => rfl
  | cons first rest ih =>
    cases hfirst : fits first <;> cases hfirst' : fits' first
    · rw [updateFirst_cons_of_neg hfirst', updateFirst_cons_of_neg hfirst,
        updateFirst_cons_of_neg hfirst, updateFirst_cons_of_neg hfirst', ih]
    · rw [updateFirst_cons_of_pos hfirst', updateFirst_cons_of_neg hfirst,
        updateFirst_cons_of_pos hfirst', updateFirst_cons_of_neg ((hfits first).trans hfirst)]
    · rw [updateFirst_cons_of_neg hfirst', updateFirst_cons_of_pos hfirst,
        updateFirst_cons_of_pos hfirst, updateFirst_cons_of_neg ((hfits' first).trans hfirst')]
    · rw [updateFirst_cons_of_pos hfirst', updateFirst_cons_of_pos hfirst,
        updateFirst_cons_of_pos ((hfits first).trans hfirst),
        updateFirst_cons_of_pos ((hfits' first).trans hfirst'), hcomm first hfirst hfirst']

/-- Where the thing that is found stays as it is, all do. -/
theorem updateFirst_eq_self {items : List α}
    (h : ∀ item, items.find? fits = some item → change item = item) :
    updateFirst fits change items = items := by
  induction items with
  | nil => rfl
  | cons first rest ih =>
    rw [updateFirst]
    split
    · next hfits => rw [h first (List.find?_cons_of_pos hfits)]
    · next hfits => rw [ih fun item hitem => h item ((List.find?_cons_of_neg hfits).trans hitem)]

end UpdateFirst

namespace Schema

variable {schema : Schema}

theorem updateTable_comm {database database' name name' : String} {change change' : Table → Table}
    (hname : ∀ table, (change table).name = table.name)
    (hname' : ∀ table, (change' table).name = table.name)
    (hcomm : database = database' → name = name' → ∀ table,
      change (change' table) = change' (change table)) (schema : Schema) :
    (schema.updateTable database' name' change').updateTable database name change =
      (schema.updateTable database name change).updateTable database' name' change' := by
  refine congrArg Schema.mk <| updateFirst_comm (by exact fun _ => rfl) (by exact fun _ => rfl)
    (fun found hfound hfound' => ?_) _
  rw [Database.mk.injEq]
  refine ⟨rfl, updateFirst_comm (fun table => ?_) (fun table => ?_)
    (fun table htable htable' => ?_) _, rfl⟩
  · rw [hname']
  · rw [hname]
  · rw [beq_iff_eq] at hfound hfound' htable htable'
    exact hcomm (hfound.symm.trans hfound') (htable.symm.trans htable') table

/-- Columns at different addresses can be changed in either order. -/
theorem updateColumn_comm {ref ref' : ColumnRef} (hne : ref ≠ ref') {change change' : Column → Column}
    (hname : ∀ column, (change column).name = column.name)
    (hname' : ∀ column, (change' column).name = column.name) (schema : Schema) :
    (schema.updateColumn ref' change').updateColumn ref change =
      (schema.updateColumn ref change).updateColumn ref' change' := by
  refine updateTable_comm (by exact fun _ => rfl) (by exact fun _ => rfl)
    (fun hdatabase htable table => ?_) schema
  rw [Table.mk.injEq]
  refine ⟨rfl, rfl, rfl, rfl, rfl, ?_, rfl, rfl⟩
  refine updateFirst_comm (fun column => ?_) (fun column => ?_) (fun column hcolumn hcolumn' => ?_) _
  · rw [hname']
  · rw [hname]
  · refine absurd ?_ hne
    rw [beq_iff_eq] at hcolumn hcolumn'
    cases ref
    cases ref'
    rw [ColumnRef.mk.injEq]
    exact ⟨hdatabase, htable, hcolumn.symm.trans hcolumn'⟩

/-- Where there is no column, none is changed. -/
theorem updateColumn_eq_self {ref : ColumnRef} (h : schema.column? ref = none)
    (change : Column → Column) : schema.updateColumn ref change = schema := by
  refine congrArg Schema.mk (updateFirst_eq_self fun database hdatabase => ?_)
  rw [updateFirst_eq_self fun table htable => ?_]
  rw [updateFirst_eq_self fun column hcolumn => ?_]
  have hfound : schema.column? ref = some column :=
    Option.bind_eq_some_iff.2
      ⟨database, hdatabase, Option.bind_eq_some_iff.2 ⟨table, htable, hcolumn⟩⟩
  rw [h] at hfound
  cases hfound

end Schema

namespace Catalog

variable (catalog : Catalog) (policies : List AccessPolicy)

/-- A foreign key takes effect if both of its columns survive. -/
def Effective (entry : CatalogLink) : Prop :=
  catalog.Survives policies entry.source ∧ catalog.Survives policies entry.target

instance (entry : CatalogLink) : Decidable (catalog.Effective policies entry) :=
  inferInstanceAs (Decidable (_ ∧ _))

/-- No column has two foreign keys that take effect and lead to different columns. -/
def OneTargetEach : Prop :=
  ∀ entry ∈ catalog.links, ∀ other ∈ catalog.links, entry.source = other.source →
    catalog.Effective policies entry → catalog.Effective policies other →
      entry.target = other.target

/-- What a foreign key does to any schema of what survives. -/
def applyLink (schema : Schema) (entry : CatalogLink) : Schema :=
  if catalog.Effective policies entry then
    schema.updateColumn entry.source fun column => column.references entry.target
  else schema

variable {catalog policies}

theorem link_eq_applyLink {schema : Schema} (h : schema.Keeps catalog policies)
    (entry : CatalogLink) : schema.link entry = catalog.applyLink policies schema entry := by
  have hsource := h.isSome_column? entry.source
  have htarget := h.isSome_column? entry.target
  unfold Schema.link applyLink
  by_cases heffective : catalog.Effective policies entry
  · rw [if_pos heffective, if_neg]
    rw [Option.isNone_iff_eq_none, ← ne_eq, ← Option.isSome_iff_ne_none]
    exact htarget.2 heffective.2
  · rw [if_neg heffective]
    split
    · rfl
    · next hfound =>
      refine Schema.updateColumn_eq_self
        (Option.not_isSome_iff_eq_none.1 fun hsome => heffective ?_) _
      rw [Option.isNone_iff_eq_none, ← ne_eq, ← Option.isSome_iff_ne_none] at hfound
      exact ⟨hsource.1 hsome, htarget.1 hfound⟩

theorem linkedSchema_eq (links : List CatalogLink) :
    catalog.linkedSchema policies links =
      links.foldl (catalog.applyLink policies) (catalog.bareSchema policies) := by
  induction links using List.reverseRecOn with
  | nil => rfl
  | append_singleton links entry ih =>
    rw [linkedSchema_append_singleton, link_eq_applyLink (keeps_linkedSchema links), ih,
      List.foldl_append]
    rfl

theorem applyLink_comm (schema : Schema) {entry other : CatalogLink}
    (h : entry.source = other.source → catalog.Effective policies entry →
      catalog.Effective policies other → entry.target = other.target) :
    catalog.applyLink policies (catalog.applyLink policies schema entry) other =
      catalog.applyLink policies (catalog.applyLink policies schema other) entry := by
  by_cases heffective : catalog.Effective policies entry
  · by_cases heffective' : catalog.Effective policies other
    · by_cases hsource : entry.source = other.source
      · have hsame : entry = other := by
          rw [CatalogLink.mk.injEq]
          exact ⟨hsource, h hsource heffective heffective'⟩
        rw [hsame]
      · simp only [applyLink, if_pos heffective, if_pos heffective']
        exact Schema.updateColumn_comm (Ne.symm hsource) (by exact fun _ => rfl)
          (by exact fun _ => rfl) schema
    · simp only [applyLink, if_neg heffective']
  · simp only [applyLink, if_neg heffective]

theorem linkedSchema_perm (h : catalog.OneTargetEach policies) {links : List CatalogLink}
    (hperm : links.Perm catalog.links) :
    catalog.linkedSchema policies links = catalog.linkedSchema policies catalog.links := by
  rw [linkedSchema_eq, linkedSchema_eq]
  refine hperm.foldl_eq' (fun entry hentry other hother schema => ?_) _
  exact applyLink_comm schema (h entry (hperm.subset hentry) other (hperm.subset hother))

variable (catalog policies)

/-- A catalog gives the same schema for every order of its foreign keys exactly if those of one
column that take effect lead to one column. -/
theorem linkOrder_free_iff (aliases : Entries (List String)) :
    (∀ links, links.Perm catalog.links →
      Catalog.toSchema { catalog with links } policies aliases = catalog.toSchema policies aliases) ↔
    catalog.OneTargetEach policies := by
  constructor
  · intro h entry hentry other hother hsource heffective heffective'
    obtain ⟨column, hcolumn⟩ := Option.isSome_iff_exists.1 <|
      ((keeps_toSchema catalog policies aliases).isSome_column? entry.source).2 heffective.1
    -- Either of the two foreign keys stays when it is listed last.
    have hlast : ∀ last ∈ catalog.links, last.source = entry.source →
        catalog.Effective policies last → column.relation = some last.target := by
      intro last hmem hsame hlasts
      have hperm : (catalog.links.erase last ++ [last]).Perm catalog.links :=
        (List.perm_append_singleton last _).trans (List.perm_cons_erase hmem).symm
      rw [← h _ hperm] at hcolumn
      have hrelation := relation_of_column? hcolumn
      rwa [lastTarget?_append_singleton, if_pos ⟨hsame, hlasts.2⟩] at hrelation
    have hentryLast := hlast entry hentry rfl heffective
    have hotherLast := hlast other hother hsource.symm heffective'
    exact Option.some.inj (hentryLast.symm.trans hotherLast)
  · intro h links hperm
    exact congrArg (fun schema => aliases.foldl (fun schema entry =>
      schema.addAliases entry.1 entry.2) schema) (linkedSchema_perm h hperm)

end Catalog

/-! ## An order of two customers -/

/-- The customer of an order is in two tables. -/
def twofoldOrders : Catalog where
  databases := ["shop"]
  tables := [("shop", "customers"), ("shop", "people"), ("shop", "orders")]
  columns := [
    ⟨"shop", "customers", "id", "int(11)", false, "PRI", false⟩,
    ⟨"shop", "people", "id", "int(11)", false, "PRI", false⟩,
    ⟨"shop", "orders", "id", "int(11)", false, "PRI", false⟩,
    ⟨"shop", "orders", "who_id", "int(11)", false, "MUL", false⟩]
  links := [⟨⟨"shop", "orders", "who_id"⟩, ⟨"shop", "customers", "id"⟩⟩,
    ⟨⟨"shop", "orders", "who_id"⟩, ⟨"shop", "people", "id"⟩⟩]

/-- Listed the other way round, the same foreign keys lead an order to customers and not to
people. -/
theorem order_led_by_last_link :
    ¬ ∀ links, links.Perm twofoldOrders.links →
      Catalog.toSchema { twofoldOrders with links } [] [] = twofoldOrders.toSchema [] [] := by
  intro h
  have hschema := h twofoldOrders.links.reverse (List.reverse_perm _)
  have hcolumn := congrArg (fun schema => schema.column? ⟨"shop", "orders", "who_id"⟩) hschema
  revert hcolumn
  decide +kernel

end TableApi
