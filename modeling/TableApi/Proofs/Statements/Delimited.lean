import TableApi.Proofs.Deleting.Held
import TableApi.Proofs.Faithful
import TableApi.Proofs.Introspection
import TableApi.Proofs.Statements.Phrases
import TableApi.Proofs.Statements.Selections

/-!
# Statements are well delimited

Names of databases, tables and columns are arbitrary texts, and nothing else that a client
or a catalog gives is written into a statement. `statements_delimited` says that every
statement can be scanned to its end, that its identifiers are the names of what it is
about, in order, and that around them stand keywords, symbols, the aliases of the
resource's tables, and a placeholder for each value.
-/

namespace TableApi

/-- A statement whose identifiers are the given names, in order. Outside of them are fixed
words and symbols, the first aliases, and as many placeholders as values are bound; the
word WHERE stands there at most once. -/
structure Statement.Delimited (aliases : Nat) (names : List String) (statement : Statement)
    (tokens : List Sql.Token) : Prop where
  scanned : Sql.scan statement.sql = some tokens
  identifiers : tokens.filterMap Sql.Token.name? = names
  known : ∀ token ∈ tokens, token.Known aliases
  placeholders : tokens.count (.symbol '?') = statement.params.length
  wheres : tokens.count (.word "WHERE") ≤ 1

theorem Sql.Phrase.Spells.delimited {aliases wheres : Nat} {phrase : Sql.Phrase}
    {names : List String} (h : Sql.Phrase.Spells aliases phrase names wheres)
    (hwheres : wheres ≤ 1) : ∃ tokens, phrase.statement.Delimited aliases names tokens := by
  obtain ⟨tokens, hscan, hshow⟩ := h
  exact ⟨tokens, hscan, hshow.identifiers, hshow.known, hshow.placeholders,
    hshow.wheres.trans_le hwheres⟩

/-! ## Every compiled resource is under aliases -/

/-- The columns of an expansion are those of tables that it numbers. -/
theorem Expansion.number_lt {expansion : Expansion} {owner next : Nat} {path : List Column}
    (hearlier : owner < next) {site : Site} (h : site ∈ expansion.sites owner next path) :
    site.number < next + expansion.size := by
  induction expansion generalizing owner next path with
  | nil => cases h
  | plain source rest ih =>
    rcases List.mem_cons.1 h with rfl | h
    · exact Nat.lt_add_right _ hearlier
    · exact ih hearlier h
  | follow source table referenced inner rest ihInner ihRest =>
    rw [sites, List.cons_append, List.mem_cons, List.mem_append] at h
    rw [size]
    rcases h with rfl | h | h
    · exact Nat.lt_add_right _ hearlier
    · have := ihInner (Nat.lt_succ_self next) h
      omega
    · have := ihRest (by omega) h
      omega

namespace Resource

variable {schema : Schema} {root : Table} {resource : Resource}

theorem aliased_of_compile (hcompile : compile schema root = .ok resource) : resource.Aliased := by
  obtain ⟨expansion, -, hmounted, -⟩ := mounted_of_compile hcompile
  have hlength : resource.tables.length = 1 + expansion.size := by
    simp [tables_eq hmounted, Nat.add_comm]
  have hsite : ∀ site ∈ expansion.sites 0 1 [],
      site.column.AliasedBelow resource.tables.length := by
    intro site hsite
    exact ⟨site.number, hlength ▸ Expansion.number_lt Nat.zero_lt_one hsite, rfl⟩
  constructor
  · intro column hcolumn
    rw [columns, shape, hmounted] at hcolumn
    obtain ⟨site, hmem, rfl⟩ := Expansion.site_of_leaf hcolumn
    exact hsite site hmem
  · intro column hcolumn
    have hshape := List.mem_of_mem_filter hcolumn
    rw [shape, hmounted] at hshape
    obtain ⟨key, hkey⟩ := Slot.mem_columns_shape.1 hshape
    obtain ⟨site, hmem, rfl⟩ := Expansion.shown_of_mem_entries (Entries.mem_of_mem_ofList hkey)
    exact hsite site hmem
  · intro table htable
    obtain ⟨i, hi⟩ := List.mem_iff_getElem?.1 htable
    exact ⟨i, (List.getElem?_eq_some_iff.1 hi).1, storageAlias_of_getElem? hmounted hi⟩
  · intro join hjoin
    rw [joins_eq hmounted] at hjoin
    obtain ⟨hop, hhop, rfl⟩ := List.mem_map.1 hjoin
    have hindex := (Expansion.index_of_mem_hops expansion 0 1 hhop).2
    have howner := Expansion.owner_lt_index expansion 0 1 Nat.zero_lt_one hhop
    exact ⟨hop.owner, by omega, hop.index, by omega, rfl, rfl⟩

/-! ## Selections stay within the resource -/

variable {params : Params}

theorem mem_of_column? {name : String} {column : Column} (h : resource.column? name = some column) :
    column ∈ resource.columns :=
  List.mem_of_find?_eq_some h

/-- Filters are by columns of a row. -/
theorem mem_columns_of_filter {parts : List Part} (h : resource.parts params = .ok parts)
    {filter : String × String × Column} (hfilter : filter ∈ filters parts) :
    filter.2.2 ∈ resource.columns := by
  induction params generalizing parts with
  | nil =>
    cases h
    cases hfilter
  | cons entry rest ih =>
    obtain ⟨key, raw⟩ := entry
    rw [Resource.parts] at h
    split at h
    · exact ih h hfilter
    · split at h
      · cases h
      · next part hpart =>
        obtain ⟨others, hothers, h⟩ := ok_of_bind h
        cases h
        cases part with
        | comparator target key token => exact ih hothers hfilter
        | filter own raw' column =>
          rcases List.mem_cons.1 hfilter with rfl | hfilter
          · unfold part? at hpart
            split at hpart
            · next hcolumn =>
              cases hpart
              exact mem_of_column? hcolumn
            · split at hpart
              · split at hpart <;> cases hpart
              · cases hpart
          · exact ih hothers hfilter

/-- Each condition is made of a filter. -/
theorem exists_of_mem_conditions {comparators : Entries (String × String)}
    {filters : List (String × String × Column)} {conditions : List Condition}
    (h : filters.mapM (condition comparators) = .ok conditions) {result : Condition}
    (hresult : result ∈ conditions) :
    ∃ filter ∈ filters, condition comparators filter = .ok result := by
  induction filters generalizing conditions with
  | nil =>
    cases h
    cases hresult
  | cons filter rest ih =>
    rw [List.mapM_cons] at h
    obtain ⟨first, hfirst, h⟩ := ok_of_bind h
    obtain ⟨others, hothers, h⟩ := ok_of_bind h
    cases h
    rcases List.mem_cons.1 hresult with rfl | hresult
    · exact ⟨filter, List.mem_cons_self, hfirst⟩
    · obtain ⟨found, hfound, hmade⟩ := ih hothers hresult
      exact ⟨found, List.mem_cons_of_mem _ hfound, hmade⟩

theorem columns_readFilter {filter : Filter} (h : resource.readFilter params = .ok filter) :
    filter.columns resource.columns ⊆ resource.columns := by
  unfold readFilter at h
  split at h
  · unfold searchFilter at h
    split at h
    · cases h
    · cases h
      exact List.Subset.refl _
  · obtain ⟨parts, hparts, h⟩ := ok_of_bind h
    dsimp only at h
    split at h
    · cases h
    · obtain ⟨conditions, hconditions, h⟩ := ok_of_bind h
      cases h
      intro column hcolumn
      obtain ⟨result, hresult, rfl⟩ := List.mem_map.1 hcolumn
      obtain ⟨filter, hfilter, hmade⟩ := exists_of_mem_conditions hconditions hresult
      rw [(condition_ok hmade).1]
      exact mem_columns_of_filter hparts hfilter

theorem column_readOrder {order : Order} (h : resource.readOrder params = .ok (some order)) :
    order.column ∈ resource.columns := by
  unfold readOrder at h
  split at h
  · cases h
  · split at h
    · cases h
    · next hcolumn =>
      split at h
      · cases h
        exact mem_of_column? hcolumn
      · cases h
  · cases h

theorem column_defaultOrder {page : Option Page} {order : Order}
    (h : resource.defaultOrder page = some order) : order.column ∈ resource.keyColumns := by
  unfold defaultOrder at h
  split at h
  · next hkey =>
    cases h
    rw [hkey]
    exact List.mem_cons_self
  · cases h

/-- A list is filtered by columns of a row, and ordered by one of them or by the key. -/
theorem selectionColumns_readList {pageLimit : Nat} {selection : Selection}
    (h : resource.readList params pageLimit = .ok selection) :
    ∀ column ∈ resource.selectionColumns selection,
      column ∈ resource.columns ∨ column ∈ resource.keyColumns := by
  intro column hcolumn
  obtain ⟨filter, hfilter, h⟩ := ok_of_bind h
  obtain ⟨page, -, h⟩ := ok_of_bind h
  obtain ⟨order, horder, h⟩ := ok_of_bind h
  obtain ⟨_, -, h⟩ := ok_of_bind h
  cases h
  rcases List.mem_append.1 hcolumn with hcolumn | hcolumn
  · exact .inl (columns_readFilter hfilter hcolumn)
  · cases order with
    | some order =>
      rw [List.mem_singleton.1 hcolumn]
      exact .inl (column_readOrder horder)
    | none =>
      cases hdefault : resource.defaultOrder page with
      | none => simp [hdefault] at hcolumn
      | some order =>
        simp only [hdefault, Option.orElse_none, Option.map_some, Option.toList_some,
          List.mem_singleton] at hcolumn
        rw [hcolumn]
        exact .inr (column_defaultOrder hdefault)

/-- A single row is selected by the key. -/
theorem selectionColumns_readSingle {id : String} {selection : Selection}
    (h : resource.readSingle id = .ok selection) :
    ∀ column ∈ resource.selectionColumns selection, column ∈ resource.keyColumns := by
  intro column hcolumn
  unfold readSingle at h
  split at h
  · cases h
  · next key hkey =>
    obtain ⟨value, -, h⟩ := ok_of_bind h
    cases h
    rw [hkey]
    exact hcolumn
  · cases h

end Resource

/-! ## Rows stay within the resource -/

/-- Each row below is inserted with all columns of a table below. -/
theorem Shape.place_of_inserts {shape : Shape} {pack : Entries Json} {below : List Insertion}
    {cells : List (String × Json)} (h : shape.inserts pack = .ok (below, cells))
    {insertion : Insertion} (hmem : insertion ∈ below) :
    ∃ place ∈ shape.places, insertion.table = place.1.table ∧
      insertion.cells.map Prod.fst = place.2.columns.map Column.name := by
  induction shape generalizing pack below cells with
  | nil =>
    cases h
    cases hmem
  | leaf column rest ih =>
    obtain ⟨_, _, -, hrest, -⟩ := inserts_leaf h
    exact ih hrest hmem
  | branch column placed inner rest ihInner ihRest =>
    obtain ⟨first, _, behind, _, hfirst, -, hrest, rfl, -⟩ := inserts_branch h
    rw [places, List.cons_append]
    rcases List.mem_append.1 hmem with hmem | hmem
    · rcases hfirst with ⟨-, rfl⟩ | ⟨nested, inside, own, -, hinside, rfl⟩
      · cases hmem
      rcases List.mem_append.1 hmem with hmem | hmem
      · obtain ⟨place, hplace, hsame⟩ := ihInner hinside hmem
        exact ⟨place, List.mem_cons_of_mem _ (List.mem_append_left _ hplace), hsame⟩
      · rw [List.mem_singleton.1 hmem]
        exact ⟨(placed, inner), List.mem_cons_self, rfl, names_cells hinside⟩
    · obtain ⟨place, hplace, hsame⟩ := ihRest hrest hmem
      exact ⟨place, List.mem_cons_of_mem _ (List.mem_append_right _ hplace), hsame⟩

namespace Resource

variable {schema : Schema} {root : Table} {resource : Resource}

theorem submodel_of_inserts {pack : Entries Json} {batch : List Insertion}
    (h : resource.inserts pack = .ok batch) {insertion : Insertion} (hmem : insertion ∈ batch) :
    ∃ part ∈ resource.submodels, insertion.table = part.1.table ∧
      insertion.cells.map Prod.fst = part.2.columns.map Column.name := by
  obtain ⟨⟨below, cells⟩, hbelow, h⟩ := ok_of_bind h
  cases h
  rcases List.mem_append.1 hmem with hmem | hmem
  · obtain ⟨place, hplace, hsame⟩ := Shape.place_of_inserts hbelow hmem
    exact ⟨place, List.mem_cons_of_mem _ hplace, hsame⟩
  · rw [List.mem_singleton.1 hmem]
    exact ⟨_, List.mem_cons_self, rfl, Shape.names_cells hbelow⟩

theorem submodel_of_deletes {pack : Entries Json} {batch : List Deletion}
    (h : resource.deletes pack = .ok batch) {deletion : Deletion} (hmem : deletion ∈ batch) :
    ∃ part ∈ resource.submodels, deletion.table = part.1.table ∧
      deletion.key.map Prod.fst = part.2.keyColumns.map Column.name := by
  obtain ⟨row, hrow, htable, -, hkey⟩ := exists_of_forall₂_right (deletedBy_deletes h) hmem
  have hnames := Shape.names_keyCells hkey
  rcases List.mem_cons.1 hrow with rfl | hrow
  · exact ⟨_, List.mem_cons_self, htable, hnames⟩
  · obtain ⟨placed, hplace, hplaced⟩ := Shape.place_of_heldBelow hrow
    exact ⟨_, List.mem_cons_of_mem _ hplace, htable.trans hplaced, hnames⟩

/-- **Statements are well delimited.** Whatever databases, tables and columns are named,
every statement of a resource can be scanned to its end. Its identifiers are, in order, the
names of what it is about: for a SELECT the columns of a row, the tables and the joins, and
then the columns of the filter and of the order; for an INSERT or a DELETE a table of the
resource and its columns or those of its key. -/
theorem statements_delimited (hcompile : compile schema root = .ok resource) :
    (∀ params pageLimit selection, resource.readList params pageLimit = .ok selection →
      (∀ column ∈ resource.selectionColumns selection,
        column ∈ resource.columns ∨ column ∈ resource.keyColumns) ∧
      ∃ tokens, (resource.query selection).Delimited resource.tables.length
        (resource.selectNames ++ (resource.selectionColumns selection).map Column.name) tokens) ∧
    (∀ id selection, resource.readSingle id = .ok selection →
      (∀ column ∈ resource.selectionColumns selection, column ∈ resource.keyColumns) ∧
      ∃ tokens, (resource.query selection).Delimited resource.tables.length
        (resource.selectNames ++ (resource.selectionColumns selection).map Column.name) tokens) ∧
    (∀ pack batch, resource.inserts pack = .ok batch → ∀ insertion ∈ batch,
      ∃ part ∈ resource.submodels, ∃ tokens, insertion.statement.Delimited 0
        (part.1.table.database :: part.1.table.name :: part.2.columns.map Column.name) tokens) ∧
    (∀ pack batch, resource.deletes pack = .ok batch → ∀ deletion ∈ batch,
      ∃ part ∈ resource.submodels, ∃ tokens, deletion.statement.Delimited 0
        (part.1.table.database :: part.1.table.name :: part.2.keyColumns.map Column.name)
        tokens) := by
  have haliased := aliased_of_compile hcompile
  have hquery : ∀ selection, (∀ column ∈ resource.selectionColumns selection,
      column ∈ resource.columns ∨ column ∈ resource.keyColumns) →
      ∃ tokens, (resource.query selection).Delimited resource.tables.length
        (resource.selectNames ++ (resource.selectionColumns selection).map Column.name) tokens := by
    intro selection hcolumns
    obtain ⟨wheres, hwheres, hspells⟩ := spells_selectionPhrase haliased fun column hcolumn =>
      (hcolumns column hcolumn).elim (haliased.columns column) (haliased.keyColumns column)
    exact hspells.delimited hwheres
  refine ⟨?_, ?_, ?_, ?_⟩
  · intro params pageLimit selection hread
    have hcolumns := selectionColumns_readList hread
    exact ⟨hcolumns, hquery selection hcolumns⟩
  · intro id selection hread
    have hcolumns := selectionColumns_readSingle hread
    exact ⟨hcolumns, hquery selection fun column hcolumn => .inr (hcolumns column hcolumn)⟩
  · intro pack batch hbatch insertion hmem
    obtain ⟨part, hpart, htable, hnames⟩ := submodel_of_inserts hbatch hmem
    have hspells := insertion.spells.delimited (Nat.zero_le 1)
    rw [htable, hnames] at hspells
    exact ⟨part, hpart, hspells⟩
  · intro pack batch hbatch deletion hmem
    obtain ⟨part, hpart, htable, hnames⟩ := submodel_of_deletes hbatch hmem
    have hspells := deletion.spells.delimited (Nat.le_refl 1)
    rw [htable, hnames] at hspells
    exact ⟨part, hpart, hspells⟩

end Resource

/-! ## Names that look like text -/

/-- A shop with quotes, dots, question marks and keywords in its names. -/
def hostileShop : Catalog where
  databases := ["sh`op"]
  tables := [("sh`op", "orders?"), ("sh`op", "from.`WHERE`")]
  columns := [
    ⟨"sh`op", "orders?", "id", "int(11)", false, "PRI", false⟩,
    ⟨"sh`op", "orders?", "to.``", "int(11)", false, "MUL", false⟩,
    ⟨"sh`op", "from.`WHERE`", "key`", "int(11)", false, "PRI", false⟩,
    ⟨"sh`op", "from.`WHERE`", "? OR `1` = 1", "varchar(64)", false, "", false⟩]
  links := [⟨⟨"sh`op", "orders?", "to.``"⟩, ⟨"sh`op", "from.`WHERE`", "key`"⟩⟩]

def hostileSchema : Schema :=
  hostileShop.toSchema [] []

def hostileTable : Table :=
  (hostileSchema.table? "sh`op.orders?").getD default

def hostileOrder : Resource :=
  (Resource.compile hostileSchema hostileTable).toOption.get (by decide +kernel)

/-- A filter by the last of the columns. -/
def hostileParams : Params :=
  [("to.``_? OR `1` = 1", "7 OR 1 = 1")]

/-- The names are read back as they are. -/
theorem hostile_names_read :
    Resource.compile hostileSchema hostileTable = .ok hostileOrder ∧
      ∃ selection tokens, hostileOrder.readList hostileParams 0 = .ok selection ∧
        (hostileOrder.query selection).sql =
          "SELECT t1.`id`, t2.`key```, t2.`? OR ``1`` = 1` FROM `sh``op`.`orders?` AS t1, " ++
            "`sh``op`.`from.``WHERE``` AS t2 WHERE t1.`to.````` = t2.`key``` " ++
            "AND t2.`? OR ``1`` = 1` = ?" ∧
        (hostileOrder.query selection).Delimited 2
          ["id", "key`", "? OR `1` = 1", "sh`op", "orders?", "sh`op", "from.`WHERE`", "to.``",
            "key`", "? OR `1` = 1"] tokens := by
  have hcompile : Resource.compile hostileSchema hostileTable = .ok hostileOrder := eq_ok_get _
  have hread := eq_ok_get (x := hostileOrder.readList hostileParams 0) (by decide +kernel)
  obtain ⟨tokens, htokens⟩ := ((Resource.statements_delimited hcompile).1 _ _ _ hread).2
  refine ⟨hcompile, _, tokens, hread, by decide +kernel, ?_⟩
  have hlength : hostileOrder.tables.length = 2 := by decide +kernel
  have hnames : hostileOrder.selectNames ++ (hostileOrder.selectionColumns
      ((hostileOrder.readList hostileParams 0).toOption.get (by decide +kernel))).map Column.name =
      ["id", "key`", "? OR `1` = 1", "sh`op", "orders?", "sh`op", "from.`WHERE`", "to.``",
        "key`", "? OR `1` = 1"] := by
    decide +kernel
  rw [hlength, hnames] at htokens
  exact htokens

end TableApi
