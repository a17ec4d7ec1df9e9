import TableApi.Proofs.Introspection.Kept
import Mathlib.Data.List.Induction
import Mathlib.Data.List.Nodup

/-!
# The relation of a column

Changing a column by its address changes what is found at that address and nothing else
(`Schema.column?_updateColumn`), so the foreign keys of a catalog can be followed one
address at a time. A foreign key takes effect when both of its ends survive the policies
(`Catalog.Survives`), and of those with the same source the last one listed stays:
`Catalog.relation_of_column?`.
-/

namespace TableApi

/-! ## Finding a thing that was changed -/

/-- A change that keeps names is seen in what is found by its name, and nowhere else. -/
theorem find?_updateFirst {α : Type} (name : α → String) (change : α → α)
    (hname : ∀ item, name (change item) = name item) (changed wanted : String) (items : List α) :
    (updateFirst (fun item => name item == changed) change items).find?
        (fun item => name item == wanted) =
      if wanted = changed then (items.find? fun item => name item == wanted).map change
      else items.find? fun item => name item == wanted := by
  induction items with
  | nil => split <;> rfl
  | cons first rest ih =>
    rw [updateFirst]
    by_cases hchanged : name first = changed
    · rw [if_pos (by simpa using hchanged), List.find?_cons, List.find?_cons, hname, hchanged]
      by_cases hwanted : wanted = changed
      · simp [hwanted]
      · simp only [beq_eq_false_iff_ne.2 (Ne.symm hwanted), hwanted, if_false]
    · rw [if_neg (by simpa using hchanged), List.find?_cons, List.find?_cons]
      by_cases hfound : name first = wanted
      · have hwanted : wanted ≠ changed := fun h => hchanged (hfound.trans h)
        simp [hfound, hwanted]
      · simp only [beq_eq_false_iff_ne.2 hfound]
        exact ih

namespace Schema

variable {schema : Schema}

theorem database?_updateTable (database table wanted : String) (change : Table → Table) :
    (schema.updateTable database table change).database? wanted =
      if wanted = database then (schema.database? wanted).map fun found =>
        { found with tables := updateFirst (fun t => t.name == table) change found.tables }
      else schema.database? wanted :=
  find?_updateFirst Database.name _ (by exact fun _ => rfl) database wanted schema.databases

theorem holder?_updateTable {database table : String} {change : Table → Table}
    (hname : ∀ found, (change found).name = found.name) (ref : ColumnRef) :
    (schema.updateTable database table change).holder? ref =
      if ref.database = database ∧ ref.table = table then (schema.holder? ref).map change
      else schema.holder? ref := by
  unfold holder?
  rw [database?_updateTable]
  by_cases hdatabase : ref.database = database
  · rw [if_pos hdatabase]
    cases schema.database? ref.database with
    | none => split <;> rfl
    | some found =>
      simp only [hdatabase, true_and]
      exact find?_updateFirst Table.name change hname table ref.table found.tables
  · rw [if_neg hdatabase, if_neg (fun h => hdatabase h.1)]

/-- A column that is changed by its address is found changed at its address, and every other
address leads where it led. -/
theorem column?_updateColumn {ref : ColumnRef} {change : Column → Column}
    (hname : ∀ column, (change column).name = column.name) (wanted : ColumnRef) :
    (schema.updateColumn ref change).column? wanted =
      if wanted = ref then (schema.column? wanted).map change else schema.column? wanted := by
  rw [column?_eq_holder, column?_eq_holder, updateColumn, holder?_updateTable (by exact fun _ => rfl)]
  by_cases htable : wanted.database = ref.database ∧ wanted.table = ref.table
  · rw [if_pos htable]
    have hwanted : wanted = ref ↔ wanted.column = ref.column := by
      cases wanted
      cases ref
      rw [ColumnRef.mk.injEq]
      exact ⟨fun h => h.2.2, fun h => ⟨htable.1, htable.2, h⟩⟩
    cases schema.holder? wanted with
    | none => split <;> rfl
    | some table =>
      simp only [hwanted]
      exact find?_updateFirst Column.name change hname ref.column wanted.column table.columns
  · rw [if_neg htable, if_neg]
    rintro rfl
    exact htable ⟨rfl, rfl⟩

/-- A change of a table that keeps its name and its columns changes no column. -/
theorem column?_updateTable {database table : String} {change : Table → Table}
    (hname : ∀ found, (change found).name = found.name)
    (hcolumns : ∀ found, (change found).columns = found.columns) (wanted : ColumnRef) :
    (schema.updateTable database table change).column? wanted = schema.column? wanted := by
  rw [column?_eq_holder, column?_eq_holder, holder?_updateTable hname]
  split
  · cases schema.holder? wanted with
    | none => rfl
    | some found =>
      show (change found).column? wanted.column = found.column? wanted.column
      rw [Table.column?, hcolumns, Table.column?]
  · rfl

/-- A foreign key sets the relation of its source if both of its ends are there. -/
theorem column?_link (entry : CatalogLink) (wanted : ColumnRef) :
    (schema.link entry).column? wanted =
      if wanted = entry.source ∧ (schema.column? entry.target).isSome = true then
        (schema.column? wanted).map fun column => column.references entry.target
      else schema.column? wanted := by
  unfold link
  cases schema.column? entry.target with
  | none => simp
  | some target =>
    rw [if_neg (by simp), column?_updateColumn (by exact fun _ => rfl)]
    simp

/-- Aliases change no relation. -/
theorem relation_addAliases (path : String) (aliases : List String) (wanted : ColumnRef) :
    ((schema.addAliases path aliases).column? wanted).bind Column.relation =
      (schema.column? wanted).bind Column.relation := by
  unfold addAliases
  split
  · rw [column?_updateTable (by exact fun _ => rfl) (by exact fun _ => rfl)]
  · rw [column?_updateColumn (by exact fun _ => rfl)]
    split
    · cases schema.column? wanted <;> rfl
    · rfl
  · rfl

/-- What no alias changes is as it was after all of them. -/
theorem foldl_addAliases_eq {β : Type} (view : Schema → β) (hview : ∀ (schema : Schema)
    (path : String) (aliases : List String), view (schema.addAliases path aliases) = view schema)
    (entries : Entries (List String)) (schema : Schema) :
    view (entries.foldl (fun schema entry => schema.addAliases entry.1 entry.2) schema) =
      view schema := by
  induction entries generalizing schema with
  | nil => rfl
  | cons entry rest ih => exact (ih _).trans (hview schema entry.1 entry.2)

end Schema

/-! ## The foreign key that stays -/

namespace Catalog

variable (catalog : Catalog) (policies : List AccessPolicy)

/-- The target of the last foreign key from a column to one that survives. -/
def lastTarget? (links : List CatalogLink) (source : ColumnRef) : Option ColumnRef :=
  ((links.filter fun entry => entry.source = source ∧ catalog.Survives policies entry.target).getLast?).map
    CatalogLink.target

/-- What the policies leave of a catalog, with relations but without aliases. -/
def linkedSchema (links : List CatalogLink) : Schema :=
  links.foldl Schema.link (catalog.bareSchema policies)

variable {catalog policies}

theorem lastTarget?_append_singleton (links : List CatalogLink) (entry : CatalogLink)
    (source : ColumnRef) :
    catalog.lastTarget? policies (links ++ [entry]) source =
      if entry.source = source ∧ catalog.Survives policies entry.target then some entry.target
      else catalog.lastTarget? policies links source := by
  unfold lastTarget?
  rw [List.filter_append]
  split
  · next h => rw [List.filter_cons_of_pos (by simpa using h)]; simp
  · next h => rw [List.filter_cons_of_neg (by simpa using h)]; simp

theorem linkedSchema_append_singleton (links : List CatalogLink) (entry : CatalogLink) :
    catalog.linkedSchema policies (links ++ [entry]) =
      (catalog.linkedSchema policies links).link entry := by
  rw [linkedSchema, List.foldl_append]
  rfl

theorem keeps_linkedSchema (links : List CatalogLink) :
    (catalog.linkedSchema policies links).Keeps catalog policies := by
  induction links using List.reverseRecOn with
  | nil => exact keeps_bareSchema catalog policies
  | append_singleton links entry ih =>
    rw [linkedSchema_append_singleton]
    exact ih.link entry

/-- In the bare schema no column has a relation. -/
theorem relation_bareSchema {ref : ColumnRef} {column : Column}
    (h : (catalog.bareSchema policies).column? ref = some column) : column.relation = none := by
  obtain ⟨database, hdatabase, h⟩ := Option.bind_eq_some_iff.1 h
  obtain ⟨table, htable, h⟩ := Option.bind_eq_some_iff.1 h
  have hbare : (catalog.bareSchema policies).Holds fun _ table =>
      ∀ column ∈ table.columns, column.relation = none :=
    holds_bare catalog policies fun hmade _ hcolumn =>
      (bare_toTable? catalog policies hmade hcolumn).2
  exact hbare database (List.mem_of_find?_eq_some hdatabase) table
    (List.mem_of_find?_eq_some htable) column (List.mem_of_find?_eq_some h)

/-- A column refers to the target of the last foreign key from it to a column that survives. -/
theorem relation_linkedSchema (links : List CatalogLink) {ref : ColumnRef} {column : Column}
    (h : (catalog.linkedSchema policies links).column? ref = some column) :
    column.relation = catalog.lastTarget? policies links ref := by
  -- The induction is on the last foreign key, which is the one that may replace the others.
  induction links using List.reverseRecOn generalizing column with
  | nil => exact relation_bareSchema h
  | append_singleton links entry ih =>
    rw [linkedSchema_append_singleton, Schema.column?_link] at h
    have htarget : ((catalog.linkedSchema policies links).column? entry.target).isSome = true ↔
        catalog.Survives policies entry.target :=
      (keeps_linkedSchema links).isSome_column? entry.target
    rw [lastTarget?_append_singleton]
    by_cases heffect : entry.source = ref ∧ catalog.Survives policies entry.target
    · rw [if_pos ⟨heffect.1.symm, htarget.2 heffect.2⟩] at h
      obtain ⟨before, -, rfl⟩ := Option.map_eq_some_iff.1 h
      rw [if_pos heffect]
      rfl
    · rw [if_neg fun heq => heffect ⟨heq.1.symm, htarget.1 heq.2⟩] at h
      rw [if_neg heffect]
      exact ih h

/-- The relation of a column is the target of the last foreign key from it to a column that
survives, whatever aliases there are. -/
theorem relation_of_column? {aliases : Entries (List String)} {ref : ColumnRef} {column : Column}
    (h : (catalog.toSchema policies aliases).column? ref = some column) :
    column.relation = catalog.lastTarget? policies catalog.links ref := by
  have hlinked : ((catalog.toSchema policies aliases).column? ref).bind Column.relation =
      ((catalog.linkedSchema policies catalog.links).column? ref).bind Column.relation :=
    Schema.foldl_addAliases_eq (fun schema => (schema.column? ref).bind Column.relation)
      (fun _ path aliases => Schema.relation_addAliases path aliases ref) aliases _
  have hsurvives := ((keeps_toSchema catalog policies aliases).isSome_column? ref).1 (by simp [h])
  obtain ⟨linked, hfound⟩ := Option.isSome_iff_exists.1 <|
    ((keeps_linkedSchema catalog.links).isSome_column? ref).2 hsurvives
  rw [h, hfound] at hlinked
  exact hlinked.trans (relation_linkedSchema catalog.links hfound)

end Catalog

end TableApi
