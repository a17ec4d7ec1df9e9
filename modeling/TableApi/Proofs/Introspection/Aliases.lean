import TableApi.Config.Validate
import TableApi.Proofs.Introspection
import TableApi.Proofs.Steps

/-!
# Where the names of a table come from

A table of an introspected schema shows under its path, and it has the aliases that the
settings list for that path (`Table.NamedBy`). Settings are accepted only if no text names
two of their subjects (`Settings.pairwise_of_validate`), so an alias belongs to one table
(`Settings.same_table_of_alias`).
-/

namespace TableApi

/-- A table in a database has its path as its names, and beside them only aliases that are
listed for it. -/
structure Table.NamedBy (aliases : Entries (List String)) (database : String) (table : Table) :
    Prop where
  owner : table.database = database
  path : table.qualifiedName = database ++ "." ++ table.name
  primary : table.displayName.primary = table.qualifiedName
  listed : ∀ alt ∈ table.displayName.aliases, ∃ entry ∈ aliases,
    Text.split '.' entry.1 = [database, table.name] ∧ alt ∈ entry.2

namespace Catalog

variable (catalog : Catalog) (policies : List AccessPolicy)

theorem namedBy_toTable? (aliases : Entries (List String)) {database name : String}
    {table : Table} (h : catalog.toTable? policies database name = some table) :
    table.NamedBy aliases database := by
  unfold toTable? at h
  simp only at h
  split at h
  · cases h
  · cases h
    refine ⟨rfl, rfl, rfl, ?_⟩
    intro alt halt
    cases halt

/-- The tables of an introspected schema are named by the aliases it is made with. -/
theorem namedBy_toSchema (aliases : Entries (List String)) :
    (catalog.toSchema policies aliases).Holds (Table.NamedBy aliases) := by
  -- A column is changed by changing the columns of its table, which the names do not show.
  have hcolumn : ∀ (schema : Schema) (ref : ColumnRef) (change : Column → Column),
      schema.Holds (Table.NamedBy aliases) →
        (schema.updateColumn ref change).Holds (Table.NamedBy aliases) := by
    intro schema ref change h
    exact h.updateTable fun table hnamed _ =>
      ⟨hnamed.owner, hnamed.path, hnamed.primary, hnamed.listed⟩
  refine toSchema_induction (motive := fun schema => schema.Holds (Table.NamedBy aliases))
    catalog policies (holds_bare catalog policies (namedBy_toTable? catalog policies aliases)) ?_ ?_
  · intro schema entry h
    unfold Schema.link
    split
    · exact h
    · exact hcolumn schema _ _ h
  · intro schema entry hentry h
    unfold Schema.addAliases
    split
    · next database name hwords =>
      apply h.updateTable
      intro table hnamed hname
      refine ⟨hnamed.owner, hnamed.path, ?_, ?_⟩
      · rw [Name.primary_addAliases]
        exact hnamed.primary
      · intro alt halt
        rcases (Name.mem_aliases_addAliases _ _ _).1 halt with hadded | hold
        · refine ⟨entry, hentry, ?_, hadded⟩
          rw [hwords, hname]
        · exact hnamed.listed alt hold
    · exact hcolumn schema _ _ h
    · exact h

end Catalog

namespace Settings

/-- Aliases that are checked behind other names overlap neither these nor each other. -/
theorem pairwise_of_checkAliases {names : List Name} {entries : Entries (List String)}
    (h : checkAliases names entries = .ok ()) :
    (∀ name ∈ names, ∀ entry ∈ entries, name.overlaps (aliasName entry) = false) ∧
      entries.Pairwise fun entry other =>
        (aliasName entry).overlaps (aliasName other) = false := by
  induction entries generalizing names with
  | nil =>
    refine ⟨?_, .nil⟩
    intro name _ entry hentry
    cases hentry
  | cons entry rest ih =>
    rw [checkAliases] at h
    split at h
    · cases h
    · simp only at h
      split at h
      · cases h
      · next hnone =>
        obtain ⟨hbefore, hpairwise⟩ := ih h
        have hentry : ∀ name ∈ names, name.overlaps (aliasName entry) = false := by
          intro name hname
          simpa using List.find?_eq_none.1 hnone name hname
        refine ⟨?_, List.pairwise_cons.2 ⟨?_, hpairwise⟩⟩
        · intro name hname other hother
          rcases List.mem_cons.1 hother with rfl | hother
          · exact hentry name hname
          · exact hbefore name (List.mem_append_left _ hname) other hother
        · exact hbefore _ (List.mem_append_right _ (List.mem_singleton_self _))

theorem checkAliases_of_validate {settings : Settings} (h : settings.validate = .ok ()) :
    checkAliases [] settings.aliases = .ok () := by
  unfold validate at h
  simp only at h
  split at h
  · cases h
  · obtain ⟨_, -, h⟩ := ok_of_bind h
    obtain ⟨_, -, h⟩ := ok_of_bind h
    obtain ⟨_, -, h⟩ := ok_of_bind h
    exact h

/-- No two subjects of accepted settings have a name in common. -/
theorem pairwise_of_validate {settings : Settings} (h : settings.validate = .ok ()) :
    settings.aliases.Pairwise fun entry other =>
      (aliasName entry).overlaps (aliasName other) = false :=
  (pairwise_of_checkAliases (checkAliases_of_validate h)).2

/-- The aliases of a table are compared as they stand. -/
theorem matchesText_aliasName {entry : String × List String} {database table : String}
    (hwords : Text.split '.' entry.1 = [database, table]) {alt : String} (halt : alt ∈ entry.2) :
    (aliasName entry).matchesText alt = true := by
  have hscope : ∀ text, inScope entry.1 text = text := by
    intro text
    unfold inScope
    rw [hwords]
  rw [aliasName, Name.withAliases, Name.matchesText_addAliases]
  exact .inl (List.mem_map.2 ⟨alt, halt, hscope alt⟩)

/-- In a schema under accepted settings, an alias is that of one table only. -/
theorem same_table_of_alias {settings : Settings} (h : settings.validate = .ok ())
    {database database' : String} {table table' : Table}
    (hnamed : table.NamedBy settings.aliases database)
    (hnamed' : table'.NamedBy settings.aliases database') {alt : String}
    (halt : alt ∈ table.displayName.aliases) (halt' : alt ∈ table'.displayName.aliases) :
    table.qualifiedName = table'.qualifiedName := by
  obtain ⟨entry, hentry, hwords, hlisted⟩ := hnamed.listed alt halt
  obtain ⟨entry', hentry', hwords', hlisted'⟩ := hnamed'.listed alt halt'
  obtain rfl : entry = entry' :=
    Name.eq_of_matches (pairwise_of_validate h) hentry hentry' (matchesText_aliasName hwords hlisted)
      (matchesText_aliasName hwords' hlisted')
  rw [hwords] at hwords'
  simp only [List.cons.injEq, and_true] at hwords'
  rw [hnamed.path, hnamed'.path, hwords'.1, hwords'.2]

end Settings

end TableApi
