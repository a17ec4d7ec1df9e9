import TableApi.Proofs.Statements.Spelling
import TableApi.Request.Selection
import TableApi.Resource.Write

/-!
# What statements are scanned as

Phrase by phrase, in the order in which the statements are put together: references to
columns, tables and joins, then conditions, orders and pages, the SELECT of a resource with
a selection, and the statements that insert and delete a row. What the SELECT needs to know
about a resource is that its columns, tables and joins carry the aliases of its tables
(`Resource.Aliased`).
-/

namespace TableApi

open Sql.Phrase (Spells)

/-! ## Columns, tables and joins -/

/-- A column is referred to through the alias of one of the first tables. -/
def Column.AliasedBelow (aliases : Nat) (column : Column) : Prop :=
  ∃ i < aliases, column.storageAlias = some (tableAlias i ++ "." ++ column.name)

theorem dot_not_mem_tableAlias (i : Nat) : '.' ∉ (tableAlias i).toList := by
  rw [Sql.toList_tableAlias, List.mem_cons, not_or]
  refine ⟨by decide, fun hmem => ?_⟩
  exact absurd (Sql.isWordChar_of_mem_repr hmem) (by decide)

section Phrases

variable {aliases : Nat}

/-- A name behind the alias of a table. -/
theorem spells_aliased {i : Nat} (h : i < aliases) (name : String) :
    Spells aliases [.text (tableAlias i ++ "."), .name name] [name] 0 :=
  have hglued := (Spells.tableAlias h).glue 0 "." (.name name) rfl
  Spells.joinText [] hglued

theorem Column.AliasedBelow.cut {column : Column} (h : column.AliasedBelow aliases) :
    ∃ i < aliases,
      column.storageAlias.bind (Text.cutFirst '.') = some (tableAlias i, column.name) := by
  obtain ⟨i, hi, halias⟩ := h
  refine ⟨i, hi, ?_⟩
  have hdot : "." = String.singleton '.' := rfl
  rw [halias, Option.bind_some, hdot]
  exact Text.cutFirst_append (dot_not_mem_tableAlias i)

theorem Column.AliasedBelow.reference {column : Column} (h : column.AliasedBelow aliases) :
    Spells aliases column.reference [column.name] 0 := by
  obtain ⟨i, hi, hcut⟩ := h.cut
  rw [Column.reference, hcut]
  exact spells_aliased hi column.name

theorem spells_tableName (database table : String) :
    Spells aliases (Sql.Phrase.tableName database table) [database, table] 0 :=
  (Spells.name database).glue 0 "." (.name table) rfl

theorem Table.spells_source {table : Table} {i : Nat} (hi : i < aliases)
    (halias : table.storageAlias = some (tableAlias i)) :
    Spells aliases (Resource.source table) [table.database, table.name] 0 := by
  have hglued := (spells_tableName table.database table.name).glue 0 " AS " (.tableAlias hi) rfl
  rw [List.append_assoc] at hglued
  rw [Resource.source, halias]
  exact hglued.joinText _

/-- The aliases of a join are those of two of the first tables. -/
def Join.AliasedBelow (aliases : Nat) (join : Join) : Prop :=
  ∃ i < aliases, ∃ j < aliases, join.leftAlias = tableAlias i ∧ join.rightAlias = tableAlias j

theorem Join.AliasedBelow.condition {join : Join} (h : join.AliasedBelow aliases) :
    Spells aliases join.condition [join.leftColumn, join.rightColumn] 0 := by
  obtain ⟨i, hi, j, hj, hleft, hright⟩ := h
  have hglued := (spells_aliased hi join.leftColumn).glue 0 " = "
    (spells_aliased hj join.rightColumn) rfl
  rw [List.append_assoc] at hglued
  rw [Join.condition, hleft, hright, String.append_assoc]
  exact Spells.joinText [_, _] hglued

/-! ## Selections -/

/-- The terms that a filter adds to the condition of a SELECT. -/
def Filter.terms (columns : List Column) : Filter → List Sql.Phrase
  | every conditions => conditions.map Condition.phrase
  | search pattern => [(search pattern).phrase columns]

theorem Filter.phrase_eq_joined (columns : List Column) (filter : Filter) :
    filter.phrase columns = .joined " AND " (filter.terms columns) := by
  cases filter <;> rfl

/-- The columns that a filter compares, out of those of a row. -/
def Filter.columns (columns : List Column) : Filter → List Column
  | every conditions => conditions.map Condition.column
  | search _ => columns

theorem Condition.spells (condition : Condition) (h : condition.column.AliasedBelow aliases) :
    Spells aliases condition.phrase [condition.column.name] 0 := by
  have hsymbol : Sql.isGlue 0 (" " ++ condition.comparator.sql ++ " ") = true := by
    cases condition.comparator <;> rfl
  have hglued := h.reference.glue 0 _ (.value condition.value) hsymbol
  rwa [List.append_assoc, List.append_nil] at hglued

theorem Filter.spells {columns : List Column} {filter : Filter}
    (h : ∀ column ∈ filter.columns columns, column.AliasedBelow aliases) :
    Spells aliases (filter.phrase columns) ((filter.columns columns).map Column.name) 0 := by
  cases filter with
  | every conditions =>
    simp only [Filter.columns, List.forall_mem_map] at h
    rw [Filter.phrase, Filter.columns, List.map_map]
    exact Spells.list " AND " (fun condition hcondition =>
      condition.spells (h condition hcondition)) rfl
  | search pattern =>
    have hterms := Spells.list " OR " (fun column hcolumn =>
      Condition.spells ⟨column, .like, .str pattern⟩ (h column hcolumn)) rfl
    exact (hterms.lead 0 "(" rfl).tail 0 ")" rfl

theorem Order.spells {order : Order} (h : order.column.AliasedBelow aliases) :
    Spells aliases order.phrase [order.column.name] 0 := by
  have htail : Sql.isTail 0 (" " ++ order.direction.sql) = true := by
    cases order.direction <;> rfl
  exact (h.reference.lead 0 " ORDER BY " rfl).tail 0 _ htail

theorem Page.spells (page : Page) : Spells aliases page.phrase [] 0 :=
  have hglued := (Spells.value (.int page.limit)).glue 0 " OFFSET " (.value (.int page.offset)) rfl
  hglued.lead 0 " LIMIT " rfl

end Phrases

/-- The columns, tables and joins of a resource carry the aliases of its tables. -/
structure Resource.Aliased (resource : Resource) : Prop where
  columns : ∀ column ∈ resource.columns, column.AliasedBelow resource.tables.length
  keyColumns : ∀ column ∈ resource.keyColumns, column.AliasedBelow resource.tables.length
  tables : ∀ table ∈ resource.tables,
    ∃ i < resource.tables.length, table.storageAlias = some (tableAlias i)
  joins : ∀ join ∈ resource.joins, join.AliasedBelow resource.tables.length

namespace Resource

variable {resource : Resource}

/-- What the SELECT of all rows names: the columns of a row, the tables with their
databases, and the two columns of each join. -/
def selectNames (resource : Resource) : List String :=
  resource.columns.map Column.name ++
    resource.tables.flatMap (fun table => [table.database, table.name]) ++
    resource.joins.flatMap fun join => [join.leftColumn, join.rightColumn]

/-- What a selection names besides: the columns of its filter and of its order. -/
def selectionColumns (resource : Resource) (selection : Selection) : List Column :=
  selection.filter.columns resource.columns ++ (selection.order.map Order.column).toList

theorem spells_select (h : resource.Aliased) :
    Spells resource.tables.length resource.select resource.selectNames
      (if resource.joins.isEmpty then 0 else 1) := by
  have hcolumns := Spells.list ", "
    (fun column hcolumn => (h.columns column hcolumn).reference) rfl
  have hsource : ∀ table ∈ resource.tables, Spells resource.tables.length (source table)
      [table.database, table.name] 0 := by
    intro table htable
    obtain ⟨i, hi, halias⟩ := h.tables table htable
    exact Table.spells_source hi halias
  have hall := (hcolumns.lead 0 "SELECT " rfl).glue 0 " FROM " (.joined ", " hsource rfl) rfl
  unfold select selectNames
  by_cases hempty : resource.joins.isEmpty = true
  · rw [if_pos hempty, if_pos hempty, List.isEmpty_iff.1 hempty, List.flatMap_nil, List.append_nil]
    exact hall
  · rw [if_neg hempty, if_neg hempty]
    have hjoins := Spells.joined " AND " (fun join hjoin => (h.joins join hjoin).condition) rfl
    exact hall.glue 1 " WHERE " hjoins rfl

/-- A filter stands behind the connector, or there is none. -/
theorem filterClause_eq (filter : Filter) :
    (filter = .every [] ∧ resource.filterClause filter = []) ∨
      filter.terms resource.columns ≠ [] ∧ resource.filterClause filter =
        [.text resource.connector] ++ filter.phrase resource.columns := by
  cases filter with
  | every conditions =>
    cases conditions with
    | nil => exact .inl ⟨rfl, rfl⟩
    | cons condition rest => exact .inr ⟨List.cons_ne_nil _ _, rfl⟩
  | search pattern => exact .inr ⟨List.cons_ne_nil _ _, rfl⟩

/-- The word WHERE stands in front of the filter only if there are no joins. -/
theorem spells_filterClause {filter : Filter} (h : ∀ column ∈ filter.columns resource.columns,
      column.AliasedBelow resource.tables.length) :
    ∃ wheres ≤ if resource.joins.isEmpty then 1 else 0,
      Spells resource.tables.length (resource.filterClause filter)
          ((filter.columns resource.columns).map Column.name) wheres ∧
        Sql.Phrase.opens (resource.filterClause filter) = true := by
  rcases resource.filterClause_eq filter with ⟨rfl, hclause⟩ | ⟨-, hclause⟩
  · rw [hclause]
    exact ⟨0, Nat.zero_le _, Spells.nil, rfl⟩
  rw [hclause, connector]
  by_cases hempty : resource.joins.isEmpty = true
  · rw [if_pos hempty, if_pos hempty]
    exact ⟨1, Nat.le_refl 1, (Filter.spells h).lead 1 " WHERE " rfl, rfl⟩
  · rw [if_neg hempty, if_neg hempty]
    exact ⟨0, Nat.le_refl 0, (Filter.spells h).lead 0 " AND " rfl, rfl⟩

/-- A SELECT names what the resource and the selection do, and its word WHERE is that of
the joins or that of the filter. -/
theorem spells_selectionPhrase (h : resource.Aliased) {selection : Selection}
    (hselection : ∀ column ∈ resource.selectionColumns selection,
      column.AliasedBelow resource.tables.length) :
    ∃ wheres ≤ 1, Spells resource.tables.length (resource.selectionPhrase selection)
      (resource.selectNames ++ (resource.selectionColumns selection).map Column.name) wheres := by
  rw [selectionColumns, List.forall_mem_append] at hselection
  obtain ⟨wheres, hwheres, hfilter, hopens⟩ := spells_filterClause hselection.1
  have horder : Spells resource.tables.length (selection.order.elim [] Order.phrase)
      ((selection.order.map Order.column).toList.map Column.name) 0 ∧
      Sql.Phrase.opens (selection.order.elim [] Order.phrase) = true := by
    cases hsome : selection.order with
    | none => exact ⟨Spells.nil, rfl⟩
    | some order =>
      have hcolumn : order.column.AliasedBelow resource.tables.length :=
        hselection.2 _ (by simp [hsome])
      exact ⟨Order.spells hcolumn, rfl⟩
  have hpage : Spells resource.tables.length (selection.page.elim [] Page.phrase) [] 0 ∧
      Sql.Phrase.opens (selection.page.elim [] Page.phrase) = true := by
    cases selection.page with
    | none => exact ⟨Spells.nil, rfl⟩
    | some page => exact ⟨page.spells, rfl⟩
  have hall := (((spells_select h).append hfilter (.inr hopens)).append horder.1
    (.inr horder.2)).append hpage.1 (.inr hpage.2)
  rw [List.append_nil, List.append_assoc _ _ (List.map _ _), ← List.map_append] at hall
  refine ⟨_, ?_, hall⟩
  split at hwheres <;> simp_all

end Resource

/-! ## Statements that write -/

theorem Insertion.spells (insertion : Insertion) : Spells 0 insertion.phrase
    (insertion.table.database :: insertion.table.name :: insertion.cells.map Prod.fst) 0 := by
  have hnames : Spells 0 (.joined ", " (insertion.cells.map fun cell => [.name cell.1]))
      (insertion.cells.map Prod.fst) 0 :=
    .list ", " (fun cell _ => .name cell.1) rfl
  have hvalues : Spells 0 (.joined ", " (insertion.cells.map fun cell => [.value cell.2]))
      (insertion.cells.flatMap fun _ => []) 0 :=
    .joined ", " (fun cell _ => .value cell.2) rfl
  have htable : Spells 0 _ [insertion.table.database, insertion.table.name] 0 :=
    (spells_tableName _ _).lead 0 "INSERT INTO " rfl
  have hcolumns := htable.glue 0 " (" hnames rfl
  have hall := (hcolumns.glue 0 ") VALUES (" hvalues rfl).tail 0 ")" rfl
  have hnone : (insertion.cells.flatMap fun _ => []) = ([] : List String) := by simp
  rw [hnone, List.append_nil] at hall
  exact hall

/-- A DELETE has its one word WHERE in front of the key. -/
theorem Deletion.spells (deletion : Deletion) : Spells 0 deletion.phrase
    (deletion.table.database :: deletion.table.name :: deletion.key.map Prod.fst) 1 := by
  have hkey : Spells 0
      (.joined " AND " (deletion.key.map fun cell => [.name cell.1, .text " = ", .value cell.2]))
      (deletion.key.map Prod.fst) 0 :=
    .list " AND " (fun cell _ => (Spells.name cell.1).glue 0 " = " (.value cell.2) rfl) rfl
  have htable : Spells 0 _ [deletion.table.database, deletion.table.name] 0 :=
    (spells_tableName _ _).lead 0 "DELETE FROM " rfl
  exact htable.glue 1 " WHERE " hkey rfl

end TableApi
