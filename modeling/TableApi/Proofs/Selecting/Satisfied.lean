import TableApi.Proofs.Introspection
import TableApi.Proofs.Selecting
import TableApi.Resource.Write

/-!
# Stores with satisfied foreign keys

A store satisfies its foreign keys when each is null or refers to exactly one row. Such
a store takes a batch of inserted rows (`Schema.run?`) only if it is still satisfied
behind each statement, so a batch that has run leaves it satisfied.

A foreign key that is null refers to nothing, and the joins of a resource leave out a
row that refers to nothing. `answered_iff_neverNull` says that this is the only reason:
a row of the root is answered exactly when no row that the joins reach from it has null
in the column of a join.
-/

namespace TableApi

/-! ## Running a batch -/

namespace Store

/-- The store with one more row. -/
def insert (store : Store) (insertion : Insertion) : Store where
  rows database table :=
    if database = insertion.table.database ∧ table = insertion.table.name then
      store.rows database table ++ [insertion.cells]
    else store.rows database table

variable {store : Store} {insertion : Insertion}

theorem mem_insert : insertion.cells ∈ (store.insert insertion).of insertion.table := by
  show insertion.cells ∈ if _ then _ else _
  rw [if_pos ⟨rfl, rfl⟩]
  exact List.mem_append_right _ (List.mem_singleton.2 rfl)

theorem of_subset_insert (table : Table) : store.of table ⊆ (store.insert insertion).of table := by
  unfold of insert
  intro record hrecord
  show record ∈ if _ then _ else _
  split
  · exact List.mem_append_left _ hrecord
  · exact hrecord

end Store

/-- A foreign key of a table: its column, and the table and column that it refers to. -/
structure ForeignKey where
  column : String
  table : Table
  referenced : String

/-- A foreign key of a row is satisfied when it is null or exactly one row holds its
value in the referenced column. -/
def ForeignKey.satisfied (key : ForeignKey) (store : Store) (record : Record) : Bool :=
  record.value key.column = .null ∨
    (store.matching key.table key.referenced (record.value key.column)).length = 1

namespace Schema

def foreignKeys (schema : Schema) (table : Table) : List ForeignKey :=
  table.columns.filterMap fun column => do
    let target ← column.relation
    let referenced ← schema.table? target.tablePath
    some ⟨column.name, referenced, target.column⟩

/-- Every foreign key of the tables is satisfied. -/
def satisfied (schema : Schema) (tables : List Table) (store : Store) : Bool :=
  tables.all fun table => (store.of table).all fun record =>
    (schema.foreignKeys table).all fun key => key.satisfied store record

/-- Runs an INSERT. It is refused if it names a column twice, or if a foreign key were
not satisfied afterwards. -/
def insert? (schema : Schema) (tables : List Table) (store : Store) (insertion : Insertion) :
    Option Store :=
  if (insertion.cells.map Prod.fst).Nodup ∧ schema.satisfied tables (store.insert insertion) then
    some (store.insert insertion)
  else none

/-- Runs a batch, wholly or not at all. -/
def run? (schema : Schema) (tables : List Table) (store : Store) (batch : List Insertion) :
    Option Store :=
  batch.foldlM (schema.insert? tables) store

variable {schema : Schema} {tables : List Table} {store after : Store}

theorem insert?_eq_some {insertion : Insertion}
    (h : schema.insert? tables store insertion = some after) :
    (insertion.cells.map Prod.fst).Nodup ∧ schema.satisfied tables after = true ∧
      after = store.insert insertion := by
  unfold insert? at h
  split at h
  · next hok =>
    cases h
    exact ⟨hok.1, hok.2, rfl⟩
  · cases h

theorem run?_cons {insertion : Insertion} {rest : List Insertion}
    (h : schema.run? tables store (insertion :: rest) = some after) :
    ∃ middle, schema.insert? tables store insertion = some middle ∧
      schema.run? tables middle rest = some after := by
  rw [run?, List.foldlM_cons] at h
  exact Option.bind_eq_some_iff.1 h

/-- What a batch is run on stays satisfied. -/
theorem satisfied_run {batch : List Insertion} (hbefore : schema.satisfied tables store = true)
    (h : schema.run? tables store batch = some after) : schema.satisfied tables after = true := by
  induction batch generalizing store with
  | nil =>
    cases h
    exact hbefore
  | cons insertion rest ih =>
    obtain ⟨middle, hmiddle, hrest⟩ := run?_cons h
    exact ih (insert?_eq_some hmiddle).2.1 hrest

theorem of_subset_run {batch : List Insertion} (h : schema.run? tables store batch = some after)
    (table : Table) : store.of table ⊆ after.of table := by
  induction batch generalizing store with
  | nil =>
    cases h
    exact List.Subset.refl _
  | cons insertion rest ih =>
    obtain ⟨middle, hmiddle, hrest⟩ := run?_cons h
    obtain ⟨-, -, rfl⟩ := insert?_eq_some hmiddle
    exact List.Subset.trans (Store.of_subset_insert table) (ih hrest)

/-- Every row of a batch is there when the batch has run. -/
theorem mem_run {batch : List Insertion} (h : schema.run? tables store batch = some after)
    {insertion : Insertion} (hmem : insertion ∈ batch) :
    insertion.cells ∈ after.of insertion.table ∧ (insertion.cells.map Prod.fst).Nodup := by
  induction batch generalizing store with
  | nil => cases hmem
  | cons first rest ih =>
    obtain ⟨middle, hmiddle, hrest⟩ := run?_cons h
    rcases List.mem_cons.1 hmem with rfl | hmem
    · obtain ⟨hnodup, -, rfl⟩ := insert?_eq_some hmiddle
      exact ⟨of_subset_run hrest _ Store.mem_insert, hnodup⟩
    · exact ih hrest hmem

/-- A foreign key that is followed holds null or leads to one row. -/
theorem null_or_matching (hsatisfied : schema.satisfied tables store = true) {table : Table}
    (htable : table ∈ tables) {source : Column}
    (hsource : source ∈ table.visibleColumns) {target : ColumnRef} {found : Table}
    (hleads : schema.LeadsTo source target found) {record : Record}
    (hrecord : record ∈ store.of table) :
    record.value source.name = .null ∨
      ∃ other, store.matching found target.column (record.value source.name) = [other] := by
  have hkey : (⟨source.name, found, target.column⟩ : ForeignKey) ∈
      schema.foreignKeys table := by
    refine List.mem_filterMap.2 ⟨source, List.mem_of_mem_filter hsource, ?_⟩
    simp [hleads.relation, hleads.found]
  rw [satisfied, List.all_eq_true] at hsatisfied
  have hrows := List.all_eq_true.1 (hsatisfied _ htable) record hrecord
  have hone := List.all_eq_true.1 hrows _ hkey
  rw [ForeignKey.satisfied, decide_eq_true_iff] at hone
  exact hone.imp_right List.length_eq_one_iff.1

end Schema

/-! ## Rows that joins reach -/

/-- The rows that the joins reach from a row of the root, with the number of the table
of each. -/
inductive Resource.Reaches (resource : Resource) (store : Store) (record : Record) :
    Nat → Record → Prop
  | root : Reaches resource store record 0 record
  | step {j k left right join table} (hreaches : Reaches resource store record j left)
      (hjoin : resource.joins[k]? = some join) (hleft : join.leftAlias = tableAlias j)
      (htable : resource.tables[k + 1]? = some table)
      (hright : right ∈ store.matching table join.rightColumn (left.value join.leftColumn)) :
      Reaches resource store record (k + 1) right

/-- No row that the joins reach has null where a join leads on. -/
def Resource.NeverNull (resource : Resource) (store : Store) (record : Record) : Prop :=
  ∀ j left, resource.Reaches store record j left → ∀ join ∈ resource.joins,
    join.leftAlias = tableAlias j → left.value join.leftColumn ≠ .null

namespace Resource

variable {schema : Schema} {root : Table} {resource : Resource} {expansion : Expansion}
  {store : Store} {record : Record}

/-- A join leads from each row of its left table to one row of the table that is mounted
next, unless it leads from null. -/
theorem null_or_joined (hmounted : resource.toMounted = expansion.mounted root 0 [])
    (hexpands : schema.Expands root.visibleColumns expansion)
    (hsatisfied : schema.satisfied resource.tables store = true) {j k : Nat} {join : Join}
    (hjoin : resource.joins[k]? = some join) (hleft : join.leftAlias = tableAlias j) :
    join.rightAlias = tableAlias (k + 1) ∧
      ∃ left right, resource.tables[j]? = some left ∧ resource.tables[k + 1]? = some right ∧
        ∀ record ∈ store.of left, record.value join.leftColumn = .null ∨
          ∃ other, store.matching right join.rightColumn (record.value join.leftColumn) =
            [other] := by
  have hjoin' := hjoin
  rw [joins_eq hmounted, List.getElem?_map, Option.map_eq_some_iff] at hjoin'
  obtain ⟨hop, hhop, rfl⟩ := hjoin'
  obtain ⟨hindex, -, ⟨left, htable, hsource⟩, target, found, hleads, hright, hsame⟩ :=
    follows_hop hmounted hexpands hhop
  obtain rfl : hop.owner = j := tableAlias_inj.1 hleft
  rw [hjoin] at hsame
  have hreferenced : hop.referenced = target.column :=
    congrArg Join.rightColumn (Option.some.inj hsame)
  refine ⟨congrArg tableAlias hindex, left, _, htable, hright, fun other hother => ?_⟩
  have hone :=
    Schema.null_or_matching hsatisfied (List.mem_of_getElem? htable) hsource hleads hother
  show other.value hop.source.name = .null ∨ ∃ one, store.matching _ hop.referenced _ = [one]
  rw [hreferenced]
  exact hone

/-- A row that is reached is a row of the table of its number. -/
theorem Reaches.mem (hmounted : resource.toMounted = expansion.mounted root 0 [])
    (hrecord : record ∈ store.of root) {j : Nat} {left : Record}
    (h : resource.Reaches store record j left) :
    ∃ table, resource.tables[j]? = some table ∧ left ∈ store.of table := by
  cases h with
  | root => exact ⟨_, getElem?_tables hmounted List.mem_cons_self, hrecord⟩
  | step _ _ _ htable hright => exact ⟨_, htable, Store.mem_of_matching hright⟩

/-- What is answered has under each alias a row of the table of its number. -/
theorem mem_of_selected (hmounted : resource.toMounted = expansion.mounted root 0 [])
    {choice : Choice} (hchoice : choice ∈ resource.selected store) {i : Nat} {table : Table}
    (htable : resource.tables[i]? = some table) {row : Record}
    (hrow : Entries.get? choice (tableAlias i) = some row) : row ∈ store.of table := by
  obtain ⟨found, hfound, halias, hmem⟩ :=
    exists_of_forall₂_right (mem_selected_iff.1 hchoice).1 (Entries.mem_of_get? hrow)
  obtain ⟨k, hk⟩ := List.mem_iff_getElem?.1 hfound
  rw [storageAlias_of_getElem? hmounted hk, Option.getD_some] at halias
  obtain rfl : i = k := tableAlias_inj.1 halias
  obtain rfl : table = found := Option.some.inj (htable.symm.trans hk)
  exact hmem

/-- A choice that is answered holds for each join a value, not null, and a row of the
next table with the same value. -/
theorem joined_of_selected (hmounted : resource.toMounted = expansion.mounted root 0 [])
    {choice : Choice} (hchoice : choice ∈ resource.selected store) {k : Nat} {join : Join}
    (hjoin : resource.joins[k]? = some join) (hright : join.rightAlias = tableAlias (k + 1))
    {table : Table} (htable : resource.tables[k + 1]? = some table) {left : Record}
    (hleft : Entries.get? choice join.leftAlias = some left) :
    left.value join.leftColumn ≠ .null ∧
      ∃ row, Entries.get? choice (tableAlias (k + 1)) = some row ∧
        row ∈ store.matching table join.rightColumn (left.value join.leftColumn) := by
  have hholds := (mem_selected_iff.1 hchoice).2 join (List.mem_of_getElem? hjoin)
  rw [Join.holds, Choice.value, Choice.value, hleft, hright] at hholds
  have hvalue : left.value join.leftColumn ≠ .null := by
    intro hnull
    rw [Option.map_some, Option.getD_some, hnull, Json.not_sqlEqual_null] at hholds
    cases hholds
  refine ⟨hvalue, ?_⟩
  cases hrow : Entries.get? choice (tableAlias (k + 1)) with
  | none =>
    rw [hrow, Option.map_some, Option.getD_some, Json.sqlEqual_of_ne_null hvalue] at hholds
    exact absurd (decide_eq_true_iff.1 hholds).symm hvalue
  | some row =>
    rw [hrow, Option.map_some, Option.getD_some] at hholds
    exact ⟨row, rfl, List.mem_filter.2 ⟨mem_of_selected hmounted hchoice htable hrow, hholds⟩⟩

/-- A row of the root is answered only together with the rows that the joins reach. -/
theorem Reaches.chosen (hmounted : resource.toMounted = expansion.mounted root 0 [])
    (hexpands : schema.Expands root.visibleColumns expansion)
    (hsatisfied : schema.satisfied resource.tables store = true) (hrecord : record ∈ store.of root)
    {choice : Choice} (hchoice : choice ∈ resource.selected store)
    (hthis : Entries.get? choice (tableAlias 0) = some record) {j : Nat} {left : Record}
    (h : resource.Reaches store record j left) :
    Entries.get? choice (tableAlias j) = some left := by
  induction h with
  | root => exact hthis
  | @step j k left right join table hreaches hjoin hleft htable hright ih =>
    obtain ⟨halias, leftTable, rightTable, hleftTable, hrightTable, hone⟩ :=
      null_or_joined hmounted hexpands hsatisfied hjoin hleft
    obtain rfl : table = rightTable := Option.some.inj (htable.symm.trans hrightTable)
    obtain ⟨found, hfound, hmem⟩ := hreaches.mem hmounted hrecord
    obtain rfl : leftTable = found := Option.some.inj (hleftTable.symm.trans hfound)
    obtain ⟨hvalue, row, hrow, hmatches⟩ :=
      joined_of_selected hmounted hchoice hjoin halias htable (hleft ▸ ih)
    obtain ⟨only, honly⟩ := (hone left hmem).resolve_left hvalue
    rw [honly, List.mem_singleton] at hmatches hright
    rw [hrow, hmatches, hright]

/-- Where no row that is reached breaks off, every foreign key leads on. -/
theorem NeverNull.choices_ne_nil (hnever : resource.NeverNull store record)
    (hmounted : resource.toMounted = expansion.mounted root 0 [])
    (hexpands : schema.Expands root.visibleColumns expansion)
    (hsatisfied : schema.satisfied resource.tables store = true) (hrecord : record ∈ store.of root)
    {below : Expansion} {owner next : Nat} (hhops : below.hops owner next ⊆ expansion.hops 0 1)
    {left : Record} (hreaches : resource.Reaches store record owner left) :
    below.choices store next left ≠ [] := by
  induction below generalizing owner next left with
  | nil => exact List.cons_ne_nil _ _
  | plain source rest ih => exact ih hhops hreaches
  | follow source table referenced inner rest ihInner ihRest =>
    rw [Expansion.hops, List.cons_append, List.cons_subset, List.append_subset] at hhops
    obtain ⟨hhop, hinner, hrest⟩ := hhops
    obtain ⟨k, hk⟩ := List.mem_iff_getElem?.1 hhop
    obtain rfl : next = k + 1 := (follows_hop hmounted hexpands hk).1
    have hjoin : resource.joins[k]? =
        some ⟨tableAlias owner, source.name, tableAlias (k + 1), referenced⟩ := by
      rw [joins_eq hmounted, List.getElem?_map, hk]
      rfl
    have htable : resource.tables[k + 1]? = some (table.placedAt (k + 1)).table := by
      rw [tables_eq hmounted, List.getElem?_cons_succ, List.getElem?_map, hk]
      rfl
    obtain ⟨-, leftTable, rightTable, hleftTable, hrightTable, hone⟩ :=
      null_or_joined hmounted hexpands hsatisfied hjoin rfl
    obtain ⟨found, hfound, hmem⟩ := hreaches.mem hmounted hrecord
    obtain rfl : leftTable = found := Option.some.inj (hleftTable.symm.trans hfound)
    obtain rfl : rightTable = _ := Option.some.inj (hrightTable.symm.trans htable)
    have hvalue := hnever owner left hreaches _ (List.mem_of_getElem? hjoin) rfl
    obtain ⟨other, hother⟩ := (hone left hmem).resolve_left hvalue
    have hmatching : store.matching table referenced (left.value source.name) = [other] := hother
    have hreached : resource.Reaches store record (k + 1) other :=
      hreaches.step hjoin rfl htable (hother ▸ List.mem_singleton.2 rfl)
    rw [Expansion.choices_follow_ne_nil hmatching]
    exact ⟨ihInner hinner hreached, ihRest hrest hreaches⟩

/-- **Null is what hides a row.** Where foreign keys are satisfied, a row of the root is
answered exactly when no row that the joins reach from it has null where a join leads
on. -/
theorem answered_iff_neverNull (hcompile : compile schema root = .ok resource)
    (hsatisfied : schema.satisfied resource.tables store = true)
    (hrecord : record ∈ store.of root) :
    resource.Answered store record ↔ resource.NeverNull store record := by
  obtain ⟨expansion, hexpands, hmounted, -⟩ := mounted_of_compile hcompile
  constructor
  · rintro ⟨choice, hchoice, hthis⟩ j left hreaches join hjoin hleft
    obtain ⟨k, hk⟩ := List.mem_iff_getElem?.1 hjoin
    obtain ⟨halias, -, right, -, hright, -⟩ :=
      null_or_joined hmounted hexpands hsatisfied hk hleft
    have hchosen := hreaches.chosen hmounted hexpands hsatisfied hrecord hchoice hthis
    exact (joined_of_selected hmounted hchoice hk halias hright (hleft ▸ hchosen)).1
  · intro hnever
    rw [answered_iff_choices hmounted hrecord]
    exact hnever.choices_ne_nil hmounted hexpands hsatisfied hrecord (List.Subset.refl _) .root

end Resource

end TableApi
