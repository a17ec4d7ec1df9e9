import TableApi.Proofs.Parameters.Reading
import TableApi.Proofs.Statements.Clauses
import TableApi.Proofs.Statements.Delimited

/-!
# What lists select

The statement for a list is read back. In front of its condition it is the SELECT of the
resource, with its columns and tables. The condition holds where all joins do and the filter
does, each test with its own value (`Selects`); behind it come the order and the page.

With the grammar of the parameters this is all that a list comes to: `list_denoted` says which
parameters are accepted, that any others are refused, and what is selected for those that are.
-/

namespace TableApi

open Sql (Item Token)
open Sql.Phrase (Reads)

/-! ## Tests and clauses -/

/-- A name behind the alias of a table. -/
def Sql.place (owner name : String) : List Item :=
  [.token (.word owner), .token (.symbol '.'), .token (.identifier name)]

/-- The alias of the table that a column of a resource belongs to. -/
def Column.owner (column : Column) : String :=
  (column.storageAlias.bind (Text.cutFirst '.')).elim "" Prod.fst

def Column.place (column : Column) : List Item :=
  Sql.place column.owner column.name

/-- A table under its alias. -/
def Table.place (table : Table) : List Item :=
  [.token (.identifier table.database), .token (.symbol '.'), .token (.identifier table.name),
    .token (.word "AS"), .token (.word (table.storageAlias.getD ""))]

/-- The test of a join: two columns are equal. -/
def Join.test (join : Join) : List Item :=
  Sql.place join.leftAlias join.leftColumn ++
    .token (.symbol '=') :: Sql.place join.rightAlias join.rightColumn

def Comparator.tokens : Comparator → List Token
  | eq => [.symbol '=']
  | like => [.word "LIKE"]
  | gt => [.symbol '>']
  | lt => [.symbol '<']
  | gte => [.symbol '>', .symbol '=']
  | lte => [.symbol '<', .symbol '=']
  | ne => [.symbol '<', .symbol '>']

/-- The test of a condition: the column, the comparator, and the value. -/
def Condition.test (condition : Condition) : List Item :=
  condition.column.place ++ (condition.comparator.tokens.map .token ++ [.value condition.value])

namespace Filter

/-- The tests that a search makes, one for each column. -/
def likenesses (columns : List Column) (pattern : String) : List Condition :=
  columns.map fun column => ⟨column, .like, .str pattern⟩

/-- Whether a filter lets a row pass, by what its tests come to. -/
def holds (test : List Item → Bool) (columns : List Column) : Filter → Bool
  | every conditions => (conditions.map Condition.test).all test
  | search pattern => ((likenesses columns pattern).map Condition.test).any test

/-- The factors that a filter adds to the condition of a SELECT. -/
def factors (columns : List Column) : Filter → List (List Item)
  | every conditions => conditions.map Condition.test
  | search pattern => [.token (.symbol '(') ::
      ([.token (.word "OR")].intercalate ((likenesses columns pattern).map Condition.test) ++
        [.token (.symbol ')')])]

end Filter

def Order.clause (order : Order) : List Item :=
  [.token (.word "ORDER"), .token (.word "BY")] ++ order.column.place ++
    [.token (.word order.direction.sql)]

def Page.clause (page : Page) : List Item :=
  [.token (.word "LIMIT"), .value (.int page.limit), .token (.word "OFFSET"),
    .value (.int page.offset)]

/-- What follows the condition for a selection. -/
def Selection.back (selection : Selection) : List Item :=
  selection.order.elim [] Order.clause ++ selection.page.elim [] Page.clause

namespace Resource

/-- The columns of a row, and the tables they are from. -/
def front (resource : Resource) : List Item :=
  .token (.word "SELECT") ::
    ([.token (.symbol ',')].intercalate (resource.columns.map Column.place) ++
      .token (.word "FROM") ::
        [.token (.symbol ',')].intercalate (resource.tables.map Table.place))

/-- A statement selects the columns of a resource from its tables, where all joins and a filter
hold, and ends in `back`. This is so whatever the tests come to. -/
def Selects (resource : Resource) (filter : Filter) (back : List Item) (statement : Statement) :
    Prop :=
  ∃ condition, statement.clauses? = some ⟨resource.front, condition, back⟩ ∧
    ∀ test, Sql.Clauses.holds? test ⟨resource.front, condition, back⟩ =
      some ((resource.joins.map Join.test).all test && filter.holds test resource.columns)

end Resource

/-! ## Phrase by phrase -/

section Phrases

variable {aliases : Nat}

theorem reads_aliased (i : Nat) (name : String) :
    Reads [.text (tableAlias i ++ "."), .name name] (Sql.place (tableAlias i) name) := by
  have hdot : Sql.scan "." = some [.symbol '.'] := rfl
  have hscan : Sql.scan (tableAlias i ++ ".") = some [.word (tableAlias i), .symbol '.'] :=
    Sql.scan_text_append (Sql.scan_tableAlias i) hdot (.inr rfl)
  exact (Reads.name name).lead _ _ ⟨hscan, rfl⟩ (Sql.Piece.closes_append _ rfl)

theorem Column.AliasedBelow.owner {column : Column} (h : column.AliasedBelow aliases) :
    ∃ i, column.owner = tableAlias i ∧
      column.reference = [.text (tableAlias i ++ "."), .name column.name] := by
  obtain ⟨i, -, hcut⟩ := h.cut
  refine ⟨i, ?_, ?_⟩
  · rw [Column.owner, hcut]
    rfl
  · rw [Column.reference, hcut]

theorem Column.AliasedBelow.reads {column : Column} (h : column.AliasedBelow aliases) :
    Reads column.reference column.place := by
  obtain ⟨i, howner, hreference⟩ := h.owner
  rw [hreference, Column.place, howner]
  exact reads_aliased i column.name

theorem Table.reads_source {table : Table} {i : Nat}
    (halias : table.storageAlias = some (tableAlias i)) :
    Reads (Resource.source table) table.place := by
  have hword : Sql.scan " AS " = some [.word "AS"] := rfl
  have hscan : Sql.scan (" AS " ++ tableAlias i) = some [.word "AS", .word (tableAlias i)] :=
    Sql.scan_text_append hword (Sql.scan_tableAlias i) (.inl rfl)
  have hopens : (Sql.Piece.text (" AS " ++ tableAlias i)).opens = true :=
    Sql.Piece.opens_append _ rfl
  have hname : Reads (Sql.Phrase.tableName table.database table.name) _ :=
    (Reads.name table.database).glue "." [.symbol '.'] (.name table.name) ⟨rfl, rfl⟩ rfl rfl
  rw [Resource.source, Table.place, halias]
  exact hname.append (Reads.text _ _ ⟨hscan, rfl⟩) (.inr hopens)

theorem Join.AliasedBelow.reads {join : Join} (h : join.AliasedBelow aliases) :
    Reads join.condition join.test := by
  obtain ⟨i, -, j, -, hleft, hright⟩ := h
  have hequals : Sql.scan " = " = some [.symbol '='] := rfl
  have hdot : Sql.scan "." = some [.symbol '.'] := rfl
  have hscan : Sql.scan (" = " ++ tableAlias j ++ ".") =
      some [.symbol '=', .word (tableAlias j), .symbol '.'] :=
    Sql.scan_text_append
      (Sql.scan_text_append hequals (Sql.scan_tableAlias j) (.inl rfl)) hdot
      (.inr rfl)
  have hopens : (Sql.Piece.text (" = " ++ tableAlias j ++ ".")).opens = true :=
    Sql.Piece.opens_append _ (Sql.Piece.opens_append _ rfl)
  have hcloses : (Sql.Piece.text (" = " ++ tableAlias j ++ ".")).closes = true :=
    Sql.Piece.closes_append _ rfl
  rw [Join.condition, Join.test, hleft, hright]
  exact (reads_aliased i join.leftColumn).glue _ _ (.name join.rightColumn)
    ⟨hscan, rfl⟩ hopens hcloses

theorem Condition.reads {condition : Condition} (h : condition.column.AliasedBelow aliases) :
    Reads condition.phrase condition.test := by
  have htext : Sql.scan (" " ++ condition.comparator.sql ++ " ") =
      some condition.comparator.tokens ∧ condition.comparator.tokens.contains (.symbol '?') = false ∧
      (Sql.Piece.text (" " ++ condition.comparator.sql ++ " ")).opens = true ∧
      (Sql.Piece.text (" " ++ condition.comparator.sql ++ " ")).closes = true := by
    cases condition.comparator <;> exact ⟨rfl, rfl, rfl, rfl⟩
  obtain ⟨hscan, hplain, hopens, hcloses⟩ := htext
  exact h.reads.glue _ _ (.value condition.value) ⟨hscan, hplain⟩ hopens hcloses

theorem Order.reads {order : Order} (h : order.column.AliasedBelow aliases) :
    Reads order.phrase order.clause := by
  have htext : Sql.scan (" " ++ order.direction.sql) = some [.word order.direction.sql] ∧
      (Sql.Piece.text (" " ++ order.direction.sql)).opens = true := by
    cases order.direction <;> exact ⟨rfl, rfl⟩
  obtain ⟨hscan, hopens⟩ := htext
  have hcolumn := h.reads.lead " ORDER BY " [.word "ORDER", .word "BY"] ⟨rfl, rfl⟩ rfl
  exact hcolumn.append (.text _ _ ⟨hscan, rfl⟩) (.inr hopens)

theorem Page.reads (page : Page) : Reads page.phrase page.clause :=
  have hglued := (Reads.value (.int page.limit)).glue " OFFSET " [.word "OFFSET"]
    (.value (.int page.offset)) ⟨rfl, rfl⟩ rfl rfl
  hglued.lead " LIMIT " [.word "LIMIT"] ⟨rfl, rfl⟩ rfl

end Phrases

/-! ## The condition in one piece -/

namespace Sql.Phrase

theorem joined_cons {between : String} {phrase : Sql.Phrase} {rest : List Sql.Phrase}
    (h : rest ≠ []) :
    joined between (phrase :: rest) = phrase ++ .text between :: joined between rest := by
  obtain ⟨next, others, rfl⟩ := List.exists_cons_of_ne_nil h
  rfl

/-- Lists of phrases that are not empty are joined one behind the other. -/
theorem joined_append {between : String} {phrases others : List Sql.Phrase}
    (hphrases : phrases ≠ []) (hothers : others ≠ []) :
    joined between (phrases ++ others) =
      joined between phrases ++ .text between :: joined between others := by
  induction phrases with
  | nil => exact absurd rfl hphrases
  | cons phrase rest ih =>
    by_cases hrest : rest = []
    · rw [hrest]
      exact joined_cons hothers
    · rw [List.cons_append, joined_cons (List.append_ne_nil_of_left_ne_nil hrest others),
        joined_cons hrest, ih hrest, List.append_assoc]
      rfl

/-- A condition of phrases with AND between them, if there are any. -/
def restriction : List Sql.Phrase → Sql.Phrase
  | [] => []
  | phrases => .text " WHERE " :: joined " AND " phrases

theorem restriction_of_ne_nil {phrases : List Sql.Phrase} (h : phrases ≠ []) :
    restriction phrases = .text " WHERE " :: joined " AND " phrases := by
  obtain ⟨phrase, rest, rfl⟩ := List.exists_cons_of_ne_nil h
  rfl

end Sql.Phrase

namespace Resource

variable {resource : Resource}

/-- The SELECT without its condition. -/
def frontPhrase (resource : Resource) : Sql.Phrase :=
  .text "SELECT " :: (Sql.Phrase.joined ", " (resource.columns.map Column.reference) ++
    .text " FROM " :: Sql.Phrase.joined ", " (resource.tables.map source))

/-- Joins and filter make one condition. -/
theorem select_filterClause (filter : Filter) :
    resource.select ++ resource.filterClause filter = resource.frontPhrase ++
      Sql.Phrase.restriction
        (resource.joins.map Join.condition ++ filter.terms resource.columns) := by
  have hfilter := resource.filterClause_eq filter
  rw [filter.phrase_eq_joined, List.singleton_append] at hfilter
  -- The word WHERE is that of the joins, and without any it is that of the filter.
  by_cases hempty : resource.joins = []
  · have hselect : resource.select = resource.frontPhrase := by
      simp [select, frontPhrase, hempty]
    have hconnector : resource.connector = " WHERE " := by simp [connector, hempty]
    rw [hselect, hempty, List.map_nil, List.nil_append]
    rcases hfilter with ⟨rfl, hclause⟩ | ⟨hsome, hclause⟩
    · rw [hclause]
      rfl
    · rw [hclause, hconnector, Sql.Phrase.restriction_of_ne_nil hsome]
  · have hselect : resource.select = resource.frontPhrase ++
        .text " WHERE " :: Sql.Phrase.joined " AND " (resource.joins.map Join.condition) := by
      simp [select, frontPhrase, hempty]
    have hconnector : resource.connector = " AND " := by simp [connector, hempty]
    have hjoins : resource.joins.map Join.condition ≠ [] := by simpa using hempty
    rw [hselect]
    rcases hfilter with ⟨rfl, hclause⟩ | ⟨hsome, hclause⟩
    · rw [hclause, List.append_nil, Filter.terms, List.map_nil, List.append_nil,
        Sql.Phrase.restriction_of_ne_nil hjoins]
    · rw [hclause, hconnector, Sql.Phrase.restriction_of_ne_nil
        (List.append_ne_nil_of_left_ne_nil hjoins _), Sql.Phrase.joined_append hjoins hsome,
        List.append_assoc]
      rfl

/-! ## The items of a query -/

theorem reads_front (h : resource.Aliased) : Reads resource.frontPhrase resource.front := by
  have hcolumns := Reads.map fun column hcolumn => (h.columns column hcolumn).reads
  have htables := Reads.map fun table htable => by
    obtain ⟨i, -, halias⟩ := h.tables table htable
    exact Table.reads_source halias
  have hlist := Reads.joined ", " [.symbol ','] hcolumns ⟨rfl, rfl⟩ rfl rfl
  have hall := hlist.glue " FROM " [.word "FROM"]
    (.joined ", " [.symbol ','] htables ⟨rfl, rfl⟩ rfl rfl) ⟨rfl, rfl⟩ rfl rfl
  exact hall.lead "SELECT " [.word "SELECT"] ⟨rfl, rfl⟩ rfl

theorem reads_restriction {phrases : List Sql.Phrase} {factors : List (List Item)}
    (h : List.Forall₂ Reads phrases factors) :
    Reads (Sql.Phrase.restriction phrases)
      ((Sql.restriction factors).elim [] (.token (.word "WHERE") :: ·)) := by
  cases h with
  | nil => exact .nil
  | cons hfirst hrest =>
    have hall := Reads.joined " AND " [.word "AND"] (.cons hfirst hrest) ⟨rfl, rfl⟩ rfl rfl
    exact hall.lead " WHERE " [.word "WHERE"] ⟨rfl, rfl⟩ rfl

theorem opens_restriction (phrases : List Sql.Phrase) :
    Sql.Phrase.opens (Sql.Phrase.restriction phrases) = true := by
  cases phrases with
  | nil => rfl
  | cons phrase rest => rfl

theorem reads_terms {aliases : Nat} {columns : List Column} {filter : Filter}
    (h : ∀ column ∈ filter.columns columns, column.AliasedBelow aliases) :
    List.Forall₂ Reads (filter.terms columns) (filter.factors columns) := by
  cases filter with
  | every conditions =>
    simp only [Filter.columns, List.forall_mem_map] at h
    exact Reads.map fun condition hcondition => Condition.reads (h condition hcondition)
  | search pattern =>
    have hterms : List.Forall₂ Reads
        (columns.map fun column => Condition.phrase ⟨column, .like, .str pattern⟩)
        (columns.map fun column => Condition.test ⟨column, .like, .str pattern⟩) :=
      Reads.map fun column hcolumn => Condition.reads (h column hcolumn)
    have hall := Reads.joined " OR " [.word "OR"] hterms ⟨rfl, rfl⟩ rfl rfl
    have hgroup := (hall.append (.text ")" [.symbol ')'] ⟨rfl, rfl⟩) (.inr rfl)).lead "("
      [.symbol '('] ⟨rfl, rfl⟩ rfl
    refine .cons ?_ .nil
    rw [Filter.likenesses, List.map_map]
    exact hgroup

theorem reads_back {aliases : Nat} (selection : Selection)
    (h : ∀ order, selection.order = some order → order.column.AliasedBelow aliases) :
    Reads (selection.order.elim [] Order.phrase ++ selection.page.elim [] Page.phrase)
        selection.back ∧
      Sql.Phrase.opens
        (selection.order.elim [] Order.phrase ++ selection.page.elim [] Page.phrase) = true := by
  have hpage : Reads (selection.page.elim [] Page.phrase) (selection.page.elim [] Page.clause) ∧
      Sql.Phrase.opens (selection.page.elim [] Page.phrase) = true := by
    cases selection.page with
    | none => exact ⟨.nil, rfl⟩
    | some page => exact ⟨page.reads, rfl⟩
  unfold Selection.back
  cases horder : selection.order with
  | none => exact hpage
  | some order =>
    exact ⟨(Order.reads (h order horder)).append hpage.1 (.inr hpage.2), rfl⟩

/-- The query of a selection is read clause by clause. -/
theorem reads_selectionPhrase (h : resource.Aliased) {selection : Selection}
    (hselection : ∀ column ∈ resource.selectionColumns selection,
      column.AliasedBelow resource.tables.length) :
    Reads (resource.selectionPhrase selection) (Sql.Clauses.items ⟨resource.front,
      Sql.restriction (resource.joins.map Join.test ++ selection.filter.factors resource.columns),
      selection.back⟩) := by
  rw [selectionColumns, List.forall_mem_append] at hselection
  have hjoins : List.Forall₂ Reads (resource.joins.map Join.condition)
      (resource.joins.map Join.test) :=
    Reads.map fun join hjoin => (h.joins join hjoin).reads
  have hfactors := List.rel_append hjoins (reads_terms hselection.1)
  obtain ⟨hback, hopens⟩ := reads_back selection fun order horder =>
    hselection.2 order.column (by simp [horder])
  rw [selectionPhrase, List.append_assoc, select_filterClause]
  exact ((reads_front h).append (reads_restriction hfactors) (.inr (opens_restriction _))).append
    hback (.inr hopens)

end Resource

/-! ## What the items are there for -/

section Roles

variable {aliases : Nat}

/-- An alias is never a word that has a role. -/
theorem role_alias (i : Nat) : (Item.token (.word (tableAlias i))).role = .part := by
  have hne : ∀ text ∈ ["AND", "OR", "WHERE", "ORDER", "LIMIT"], tableAlias i ≠ text := by
    have hfirst : ∀ text ∈ ["AND", "OR", "WHERE", "ORDER", "LIMIT"],
        text.toList.head? ≠ some 't' := by
      decide
    rintro text htext rfl
    refine hfirst _ htext ?_
    rw [Sql.toList_tableAlias]
    rfl
  simp only [List.forall_mem_cons] at hne
  simp [Item.role, hne]

theorem role_place (i : Nat) (name : String) :
    ∀ item ∈ Sql.place (tableAlias i) name, item.role = .part := by
  simp only [Sql.place, List.forall_mem_cons]
  exact ⟨role_alias i, rfl, rfl, nofun⟩

theorem Column.AliasedBelow.role {column : Column} (h : column.AliasedBelow aliases) :
    ∀ item ∈ column.place, item.role = .part := by
  obtain ⟨i, howner, -⟩ := h.owner
  rw [Column.place, howner]
  exact role_place i column.name

theorem Join.AliasedBelow.role {join : Join} (h : join.AliasedBelow aliases) :
    ∀ item ∈ join.test, item.role = .part := by
  obtain ⟨i, -, j, -, hleft, hright⟩ := h
  rw [Join.test, hleft, hright, List.forall_mem_append, List.forall_mem_cons]
  exact ⟨role_place i _, rfl, role_place j _⟩

theorem Condition.role {condition : Condition} (h : condition.column.AliasedBelow aliases) :
    ∀ item ∈ condition.test, item.role = .part := by
  have htokens : ∀ item ∈ condition.comparator.tokens.map Item.token, item.role = .part := by
    cases condition.comparator <;> decide
  rw [Condition.test, List.forall_mem_append, List.forall_mem_append, List.forall_mem_singleton]
  exact ⟨h.role, htokens, rfl⟩

/-- What holds of an item and of those of several lists holds where the item stands between
the lists. -/
theorem forall_mem_intercalate {α : Type} {p : α → Prop} {between : α} {lists : List (List α)}
    (hbetween : p between) (h : ∀ items ∈ lists, ∀ item ∈ items, p item) :
    ∀ item ∈ [between].intercalate lists, p item := by
  induction lists with
  | nil => nofun
  | cons items rest ih =>
    rw [List.forall_mem_cons] at h
    cases rest with
    | nil =>
      rw [List.intercalate_singleton]
      exact h.1
    | cons next others =>
      rw [List.intercalate_cons_cons, List.forall_mem_append, List.forall_mem_append,
        List.forall_mem_singleton]
      exact ⟨⟨h.1, hbetween⟩, ih h.2⟩

end Roles

namespace Resource

variable {resource : Resource}

theorem role_front (h : resource.Aliased) : ∀ item ∈ resource.front, item.role = .part := by
  have hcolumns : ∀ items ∈ resource.columns.map Column.place, ∀ item ∈ items,
      item.role = .part := by
    rw [List.forall_mem_map]
    exact fun column hcolumn => (h.columns column hcolumn).role
  have htables : ∀ items ∈ resource.tables.map Table.place, ∀ item ∈ items,
      item.role = .part := by
    rw [List.forall_mem_map]
    intro table htable
    obtain ⟨i, -, halias⟩ := h.tables table htable
    rw [Table.place, halias]
    simp only [List.forall_mem_cons]
    exact ⟨rfl, rfl, rfl, rfl, role_alias i, nofun⟩
  rw [front, List.forall_mem_cons, List.forall_mem_append, List.forall_mem_cons]
  exact ⟨rfl, forall_mem_intercalate rfl hcolumns, rfl, forall_mem_intercalate rfl htables⟩

end Resource

/-- Behind the condition stand an order or a page first, if anything. -/
theorem Selection.role_back (selection : Selection) :
    ∀ item ∈ selection.back.head?, item.role = .ends := by
  obtain ⟨filter, order, page⟩ := selection
  cases order with
  | some order =>
    rintro item ⟨⟩
    rfl
  | none =>
    cases page with
    | none => nofun
    | some page =>
      rintro item ⟨⟩
      rfl

/-! ## What holds of the rows -/

section Factors

variable {aliases : Nat} {test : List Item → Bool}

theorem Join.AliasedBelow.factor {join : Join} (h : join.AliasedBelow aliases) :
    Sql.Factor test join.test (test join.test) :=
  .of_parts (List.cons_ne_nil _ _) h.role

theorem Condition.factor {condition : Condition} (h : condition.column.AliasedBelow aliases) :
    Sql.Factor test condition.test (test condition.test) :=
  .of_parts (List.cons_ne_nil _ _) (Condition.role h)

/-- The factors of a filter with what they come to. -/
def Filter.valued (test : List Item → Bool) (columns : List Column) :
    Filter → List (List Item × Bool)
  | every conditions => conditions.map fun condition => (condition.test, test condition.test)
  | search pattern => (factors columns (search pattern)).map fun items =>
      (items, (search pattern).holds test columns)

theorem Filter.map_valued (columns : List Column) (filter : Filter) :
    (filter.valued test columns).map Prod.fst = filter.factors columns := by
  cases filter with
  | every conditions => exact List.map_map
  | search pattern => rfl

theorem Filter.all_valued (columns : List Column) (filter : Filter) :
    (filter.valued test columns).all Prod.snd = filter.holds test columns := by
  cases filter with
  | every conditions =>
    rw [Filter.valued, Filter.holds, List.all_map, List.all_map]
    rfl
  | search pattern => exact Bool.and_true _

theorem Filter.factor_valued {columns : List Column} {filter : Filter} (hcolumns : columns ≠ [])
    (h : ∀ column ∈ filter.columns columns, column.AliasedBelow aliases) :
    ∀ factor ∈ filter.valued test columns, Sql.Factor test factor.1 factor.2 := by
  cases filter with
  | every conditions =>
    simp only [Filter.columns, List.forall_mem_map] at h
    rw [Filter.valued, List.forall_mem_map]
    exact fun condition hcondition => Condition.factor (h condition hcondition)
  | search pattern =>
    have hterms : ∀ factor ∈ (likenesses columns pattern).map fun condition =>
        (condition.test, test condition.test), Sql.Factor test factor.1 factor.2 := by
      rw [List.forall_mem_map, likenesses, List.forall_mem_map]
      exact fun column hcolumn => Condition.factor (h column hcolumn)
    have hsome : ((likenesses columns pattern).map fun condition =>
        (condition.test, test condition.test)) ≠ [] := by
      simpa [likenesses] using hcolumns
    have hgroup := Sql.Factor.group hsome hterms
    rw [List.map_map, List.any_map] at hgroup
    rw [Filter.valued, Filter.factors, List.map_singleton, List.forall_mem_singleton, Filter.holds,
      List.any_map]
    exact hgroup

end Factors

namespace Resource

variable {resource : Resource}

/-- A query selects the rows for which the filter holds, and ends in the order and the page. -/
theorem selects_query (h : resource.Aliased) (hcolumns : resource.columns ≠ [])
    {selection : Selection} (hselection : ∀ column ∈ resource.selectionColumns selection,
      column.AliasedBelow resource.tables.length) :
    resource.Selects selection.filter selection.back (resource.query selection) := by
  have hread := reads_selectionPhrase h hselection
  rw [selectionColumns, List.forall_mem_append] at hselection
  have hholds : ∀ test, Sql.Clauses.holds? test ⟨resource.front,
      Sql.restriction (resource.joins.map Join.test ++ selection.filter.factors resource.columns),
      selection.back⟩ = some ((resource.joins.map Join.test).all test &&
        selection.filter.holds test resource.columns) := by
    intro test
    have hfactors : ∀ factor ∈ resource.joins.map (fun join => (join.test, test join.test)) ++
        selection.filter.valued test resource.columns, Sql.Factor test factor.1 factor.2 := by
      rw [List.forall_mem_append, List.forall_mem_map]
      exact ⟨fun join hjoin => (h.joins join hjoin).factor,
        Filter.factor_valued hcolumns hselection.1⟩
    have hall := Sql.holds?_restriction hfactors resource.front selection.back
    rw [List.map_append, List.map_map, Filter.map_valued, List.all_append, List.all_map,
      Filter.all_valued] at hall
    rw [List.all_map]
    exact hall
  refine ⟨_, ?_, hholds⟩
  rw [Statement.clauses?, show (resource.query selection).items? = some _ from hread,
    Option.map_some, Sql.Clauses.ofItems_items (role_front h)
      (fun items => Sql.Clauses.role_of_holds? (hholds fun _ => true)) selection.role_back]

/-- **A list is what its parameters denote.** Parameters of a list are accepted exactly when
they are of the grammar, and refused otherwise. The selection that they are read as is the one
that they denote, and its statement is the SELECT of the resource with a condition: this holds
where all joins do and the filter does, and behind it come the order and the page. What is bound
are the values of the filter and then those of the page. -/
theorem list_denoted {schema : Schema} {root : Table}
    (hcompile : compile schema root = .ok resource) {params : Params} (hkeys : params.keys.Nodup)
    (limit : Nat) :
    ((∃ selection, resource.readList params limit = .ok selection) ↔
        resource.Accepts params limit) ∧
      (∀ fault, resource.readList params limit = .error fault → fault.IsRefusal) ∧
      resource.Selects (.every []) [] resource.select.statement ∧
      ∀ selection, resource.readList params limit = .ok selection →
        (∀ other, resource.Denotes params limit other ↔ other = selection) ∧
        resource.Selects selection.filter selection.back (resource.query selection) ∧
        (resource.query selection).params = selection.values resource.columns := by
  have haliased := aliased_of_compile hcompile
  have hselects : ∀ selection, (∀ column ∈ resource.selectionColumns selection,
      column ∈ resource.columns ∨ column ∈ resource.keyColumns) →
      resource.Selects selection.filter selection.back (resource.query selection) :=
    fun selection hcolumns => selects_query haliased (compiled hcompile).2.1 fun column hcolumn =>
      (hcolumns column hcolumn).elim (haliased.columns column) (haliased.keyColumns column)
  refine ⟨?_, failsOnly_readList params limit, ?_, ?_⟩
  · rw [← denotes_iff_accepts hcompile]
    exact exists_congr fun selection => readList_ok_iff hcompile hkeys
  · -- All rows are those that an empty filter lets pass.
    have hall := hselects { filter := .every [] } (by simp [selectionColumns, Filter.columns])
    have hstatement : resource.query { filter := .every [] } = resource.select.statement := by
      simp [query, selectionPhrase, filterClause]
    rwa [hstatement] at hall
  · intro selection hread
    refine ⟨fun other => ?_, hselects selection (selectionColumns_readList hread),
      params_query resource selection⟩
    rw [← readList_ok_iff hcompile hkeys, hread, Except.ok.injEq, eq_comm]

end Resource

/-! ## A search among hostile names -/

/-- A search, in descending order and on its second page. -/
def hostileSearch : Params :=
  [("order_by", "id"), ("order_dir", "desc"), ("page", "2"), ("q", "7")]

/-- The likeness of a column to the term. -/
def hostileLikeness (owner name : String) : List Item :=
  Sql.place owner name ++ [.token (.word "LIKE"), .value (.str "%7%")]

/-- The OR of the search stays in its parentheses, and that of a name in the name. -/
theorem hostile_search_read :
    hostileSearch.keys.Nodup ∧ hostileOrder.Accepts hostileSearch 2 ∧
      ∃ selection, hostileOrder.readList hostileSearch 2 = .ok selection ∧
        hostileOrder.query selection =
          ⟨"SELECT t1.`id`, t2.`key```, t2.`? OR ``1`` = 1` FROM `sh``op`.`orders?` AS t1, " ++
            "`sh``op`.`from.``WHERE``` AS t2 WHERE t1.`to.````` = t2.`key``` " ++
            "AND (t1.`id` LIKE ? OR t2.`key``` LIKE ? OR t2.`? OR ``1`` = 1` LIKE ?) " ++
            "ORDER BY t1.`id` DESC LIMIT ? OFFSET ?",
            [.str "%7%", .str "%7%", .str "%7%", .int 2, .int 2]⟩ ∧
        ∃ clauses, (hostileOrder.query selection).clauses? = some clauses ∧
          ∀ test, clauses.holds? test =
            some (test (Sql.place "t1" "to.``" ++ .token (.symbol '=') :: Sql.place "t2" "key`") &&
              (test (hostileLikeness "t1" "id") || test (hostileLikeness "t2" "key`") ||
                test (hostileLikeness "t2" "? OR `1` = 1"))) := by
  have hcompile : Resource.compile hostileSchema hostileTable = .ok hostileOrder := eq_ok_get _
  have hkeys : hostileSearch.keys.Nodup := by decide +kernel
  have hread := eq_ok_get (x := hostileOrder.readList hostileSearch 2) (by decide +kernel)
  obtain ⟨haccepts, -, -, hselects⟩ := Resource.list_denoted hcompile hkeys 2
  obtain ⟨hdenotes, ⟨condition, hclauses, hholds⟩, -⟩ := hselects _ hread
  refine ⟨hkeys, haccepts.1 ⟨_, hread⟩, _, hread, by decide +kernel, _, hclauses, fun test => ?_⟩
  have hfilter : ((hostileOrder.readList hostileSearch 2).toOption.get (by decide +kernel)).filter =
      .search "%7%" := by
    have hdenoted := ((hdenotes _).2 rfl).filter
    generalize ((hostileOrder.readList hostileSearch 2).toOption.get _).filter = filter at hdenoted
    cases filter with
    | every conditions => exact absurd hdenoted.1 (by decide +kernel)
    | search pattern =>
      obtain ⟨⟨term, hterm, rfl⟩, -⟩ := hdenoted
      obtain rfl := Option.some.inj hterm
      exact congrArg Filter.search (by decide +kernel)
  have hjoins : hostileOrder.joins.map Join.test =
      [Sql.place "t1" "to.``" ++ .token (.symbol '=') :: Sql.place "t2" "key`"] := by
    decide +kernel
  have hlikenesses : (Filter.likenesses hostileOrder.columns "%7%").map Condition.test =
      [hostileLikeness "t1" "id", hostileLikeness "t2" "key`",
        hostileLikeness "t2" "? OR `1` = 1"] := by
    decide +kernel
  rw [hholds test, hfilter, Filter.holds, hjoins, hlikenesses]
  simp only [List.all_cons, List.all_nil, List.any_cons, List.any_nil, Bool.and_true,
    Bool.or_false, Bool.or_assoc]

end TableApi
