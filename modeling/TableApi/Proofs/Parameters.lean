import TableApi.Catalog
import TableApi.Proofs.Packing.Supplied
import TableApi.Request.Params

/-!
# Columns in parameters

The parameters of a list share one space of keys: display names and aliases of columns,
these names with `_comp` behind them, and four words with a meaning of their own. The names
of two columns never meet, so that a key means at most one column
(`Resource.column?_eq_some_iff`). The rest may meet.

`Resource.name_usable_iff` says what that comes to. Every name of a column orders rows. It
filters them, by any comparator, exactly when it is none of the four words and no column
takes the key that its comparator is picked by. Prices of pages that are named `page`,
`price` and `price_comp` show both exceptions (`page_and_price_not_filtered`).
-/

namespace TableApi

namespace Params

/-- The parameters that compare a column with a text. -/
def comparing (name raw token : String) : Params :=
  [(name, raw), (name ++ comparatorEnding, token)]

/-- The parameters that order by a column. -/
def ordering (name word : String) : Params :=
  [(orderBy, name), (orderDir, word)]

/-- None of the words with a meaning of their own picks a comparator. -/
theorem isReserved_comparator (name : String) : isReserved (name ++ comparatorEnding) = false := by
  have hends := Text.dropEnding?_append name comparatorEnding
  have hwords : ∀ word ∈ [orderBy, orderDir, page, search],
      Text.dropEnding? comparatorEnding word = none := by decide +kernel
  rw [Bool.eq_false_iff]
  intro h
  simp only [isReserved, Bool.or_eq_true, beq_iff_eq, or_assoc] at h
  rw [hwords _ (by simpa using h)] at hends
  cases hends

/-- Where a name is no word with a meaning of its own, neither is its comparator: nothing but
the filter is asked for. -/
theorem get?_comparing {name word : String} (raw token : String) (hfree : isReserved name = false)
    (hword : isReserved word = true) : (comparing name raw token).get? word = none := by
  rw [Entries.get?_eq_none_iff]
  intro hmem
  rcases List.mem_pair.1 hmem with rfl | rfl
  · rw [hfree] at hword
    cases hword
  · rw [isReserved_comparator] at hword
    cases hword

end Params

/-- The value that a text is compared as: a pattern for likeness, or else the value of the
column's kind. -/
def Comparator.operand? (comparator : Comparator) (column : Column) (raw : String) : Option Json :=
  if comparator = .like then some (.str (Params.pattern raw))
  else (ParamKind.ofColumn column).value? raw

/-! ## What is bound to a query -/

/-- The values that a filter compares with, in order. -/
def Filter.values (columns : List Column) : Filter → List Json
  | every conditions => conditions.map Condition.value
  | search pattern => columns.map fun _ => .str pattern

/-- The values of a selection: those of the filter, then how many rows a page has and how many
come before it. -/
def Selection.values (columns : List Column) (selection : Selection) : List Json :=
  selection.filter.values columns ++
    selection.page.elim [] fun page => [.int page.limit, .int page.offset]

theorem Column.params_reference (column : Column) : column.reference.statement.params = [] := by
  unfold reference
  split <;> rfl

theorem Condition.params_phrase (condition : Condition) :
    condition.phrase.statement.params = [condition.value] := by
  rw [phrase, Sql.Phrase.params_statement_append, Column.params_reference]
  rfl

/-- Conditions bind their values, in order, whatever stands between them. -/
theorem Condition.params_joined {α : Type} (between : String) (make : α → Condition)
    (members : List α) :
    (Sql.Phrase.joined between (members.map fun member => (make member).phrase)).statement.params =
      members.map fun member => (make member).value := by
  rw [Sql.Phrase.params_statement_joined, List.flatMap_map]
  simp only [Condition.params_phrase]
  exact (List.map_eq_flatMap).symm

theorem Order.params_phrase (order : Order) : order.phrase.statement.params = [] := by
  rw [phrase, Sql.Phrase.params_statement_append, Sql.Phrase.params_statement_append,
    Column.params_reference]
  rfl

namespace Resource

variable {resource : Resource}

/-- The SELECT of all rows binds nothing. -/
theorem params_select (resource : Resource) : resource.select.statement.params = [] := by
  have hcolumns : (Sql.Phrase.joined ", " (resource.columns.map Column.reference)).statement.params
      = [] := by
    simp [Sql.Phrase.params_statement_joined, List.flatMap_map, Column.params_reference]
  have hsources : (Sql.Phrase.joined ", " (resource.tables.map source)).statement.params = [] := by
    rw [Sql.Phrase.params_statement_joined, List.flatMap_map, List.flatMap_eq_nil_iff]
    exact fun table _ => rfl
  have hjoins : (Sql.Phrase.joined " AND " (resource.joins.map Join.condition)).statement.params
      = [] := by
    rw [Sql.Phrase.params_statement_joined, List.flatMap_map, List.flatMap_eq_nil_iff]
    exact fun join _ => rfl
  unfold select
  split <;> simp [hcolumns, hsources, hjoins, Sql.Piece.params]

/-- A query binds the values of its filter, in order, and then those of its page. -/
theorem params_query (resource : Resource) (selection : Selection) :
    (resource.query selection).params = selection.values resource.columns := by
  have hclause : (resource.filterClause selection.filter).statement.params =
      selection.filter.values resource.columns := by
    cases selection.filter with
    | every conditions =>
      cases conditions with
      | nil => rfl
      | cons condition others => exact Condition.params_joined " AND " id (condition :: others)
    | search pattern =>
      have hterms := Condition.params_joined " OR " (fun column => ⟨column, .like, .str pattern⟩)
        resource.columns
      simp [filterClause, Filter.phrase, Filter.values, hterms, Sql.Piece.params]
  have horder : (Sql.Phrase.statement (selection.order.elim [] Order.phrase)).params = [] := by
    cases selection.order with
    | none => rfl
    | some order => exact order.params_phrase
  have hpage : (Sql.Phrase.statement (selection.page.elim [] Page.phrase)).params =
      selection.page.elim [] fun page => [.int page.limit, .int page.offset] := by
    cases selection.page with
    | none => rfl
    | some page => rfl
  show (Sql.Phrase.statement (resource.select ++ resource.filterClause selection.filter ++
    selection.order.elim [] Order.phrase ++ selection.page.elim [] Page.phrase)).params = _
  simp [params_select, hclause, horder, hpage, Selection.values]

/-! ## What a key means -/

/-- A key means a column exactly when it is one of its names. -/
theorem column?_eq_some_iff {schema : Schema} {root : Table}
    (hcompile : compile schema root = .ok resource) {name : String} {column : Column} :
    resource.column? name = some column ↔
      column ∈ resource.columns ∧ column.displayName.matchesText name = true :=
  Name.find?_eq_some_iff (leaves_apart hcompile)

/-! ## A filter and its comparator -/

section Comparing

variable {name raw token : String} {column : Column}

/-- What the parameters of a comparison are there for. The second key filters as well, if it
means a column. -/
theorem parts_comparing (raw token : String) (hfree : Params.isReserved name = false)
    (hcolumn : resource.column? name = some column) :
    resource.parts (Params.comparing name raw token) = .ok [.filter name raw column,
      match resource.column? (name ++ Params.comparatorEnding) with
      | some other => .filter (name ++ Params.comparatorEnding) token other
      | none => .comparator name (name ++ Params.comparatorEnding) token] := by
  have hfirst : resource.part? name raw = some (.filter name raw column) := by
    rw [part?, hcolumn]
  have hsecond : resource.part? (name ++ Params.comparatorEnding) token =
      some (match resource.column? (name ++ Params.comparatorEnding) with
        | some other => .filter (name ++ Params.comparatorEnding) token other
        | none => .comparator name (name ++ Params.comparatorEnding) token) := by
    unfold part?
    cases resource.column? (name ++ Params.comparatorEnding) with
    | some other => rfl
    | none => simp [Text.dropEnding?_append, hcolumn]
  simp only [Params.comparing, parts, hfree, Params.isReserved_comparator, hfirst, hsecond]
  rfl

/-- Such a request is decided by its filter. -/
theorem readList_comparing (hfree : Params.isReserved name = false) :
    resource.readList (Params.comparing name raw token) 0 =
      resource.conditionFilter (Params.comparing name raw token) >>=
        fun filter => .ok { filter } := by
  have hnone : ∀ word, Params.isReserved word = true →
      (Params.comparing name raw token).get? word = none :=
    fun _ hword => Params.get?_comparing raw token hfree hword
  unfold readList readFilter readPage readOrder
  rw [hnone Params.search rfl, hnone Params.page rfl, hnone Params.orderBy rfl,
    hnone Params.orderDir rfl]
  cases resource.conditionFilter (Params.comparing name raw token) <;> rfl

theorem condition_of_operand {comparators : Entries (String × String)} {key : String}
    {comparator : Comparator} {value : Json} (hget : comparators.get? name = some (key, token))
    (htoken : Comparator.ofToken? token = some comparator)
    (hvalue : comparator.operand? column raw = some value) :
    condition comparators (name, raw, column) = .ok ⟨column, comparator, value⟩ := by
  have hread : Comparator.read token = .ok comparator := by
    rw [Comparator.read, htoken]
  simp only [condition, hget, hread]
  unfold Comparator.operand? at hvalue
  split at hvalue
  · next hlike =>
    cases hvalue
    simp only [bind, Except.bind, hlike, if_true]
  · next hlike =>
    simp only [bind, Except.bind, hlike, if_false, ParamKind.read, hvalue]

/-- A comparator whose key means no column goes with its filter. -/
theorem readList_of_untaken {comparator : Comparator} {value : Json}
    (hfree : Params.isReserved name = false) (hcolumn : resource.column? name = some column)
    (huntaken : resource.column? (name ++ Params.comparatorEnding) = none)
    (htoken : Comparator.ofToken? token = some comparator)
    (hvalue : comparator.operand? column raw = some value) :
    resource.readList (Params.comparing name raw token) 0 =
      .ok { filter := .every [⟨column, comparator, value⟩] } := by
  have hparts := parts_comparing raw token hfree hcolumn
  rw [huntaken] at hparts
  have hhas : (Params.comparing name raw token).has name = true :=
    (Entries.has_iff _ _).2 List.mem_cons_self
  have hcondition : condition [(name, (name ++ Params.comparatorEnding, token))]
      (name, raw, column) = .ok ⟨column, comparator, value⟩ :=
    condition_of_operand (by rw [Entries.get?_cons, if_pos rfl]) htoken hvalue
  rw [readList_comparing hfree, conditionFilter, hparts]
  simp only [bind, Except.bind, comparators, filters, List.filterMap_cons, List.filterMap_nil,
    Entries.sorted, List.foldl_cons, List.foldl_nil, Entries.putSorted, List.find?_cons, hhas]
  simp [hcondition, bind, Except.bind, pure, Except.pure]

/-- A comparator whose key means a column is a filter of its own. -/
theorem readList_of_taken {other : Column} {selection : Selection}
    (hfree : Params.isReserved name = false) (hcolumn : resource.column? name = some column)
    (htaken : resource.column? (name ++ Params.comparatorEnding) = some other)
    (h : resource.readList (Params.comparing name raw token) 0 = .ok selection) :
    ∃ first second, selection = { filter := .every [first, second] } := by
  have hparts := parts_comparing raw token hfree hcolumn
  rw [htaken] at hparts
  have hfilter : resource.conditionFilter (Params.comparing name raw token) =
      [(name, raw, column), (name ++ Params.comparatorEnding, token, other)].mapM (condition [])
        >>= fun conditions => .ok (.every conditions) := by
    have hnone : comparators [.filter name raw column,
        .filter (name ++ Params.comparatorEnding) token other] = [] := rfl
    simp only [conditionFilter, hparts, bind, Except.bind, hnone, List.find?_nil, filters]
  rw [readList_comparing hfree, hfilter, List.mapM_cons, List.mapM_cons] at h
  obtain ⟨filter, hfilter, h⟩ := ok_of_bind h
  obtain ⟨conditions, hconditions, hfilter⟩ := ok_of_bind hfilter
  obtain ⟨first, -, hconditions⟩ := ok_of_bind hconditions
  obtain ⟨others, hothers, hconditions⟩ := ok_of_bind hconditions
  obtain ⟨second, -, hothers⟩ := ok_of_bind hothers
  cases hothers
  cases hconditions
  cases hfilter
  cases h
  exact ⟨first, second, rfl⟩

/-- A word with a meaning of its own filters nothing. -/
theorem not_reserved_of_readList {selection : Selection}
    (h : resource.readList (Params.comparing name raw token) 0 = .ok selection) :
    Params.isReserved name = false := by
  obtain ⟨filter, hfilter, h⟩ := ok_of_bind h
  obtain ⟨page, hpage, h⟩ := ok_of_bind h
  obtain ⟨order, horder, h⟩ := ok_of_bind h
  rw [Bool.eq_false_iff]
  intro hreserved
  simp only [Params.isReserved, Bool.or_eq_true, beq_iff_eq] at hreserved
  rcases hreserved with ((rfl | rfl) | rfl) | rfl
  · cases horder
  · cases horder
  · cases hpage
  · cases hfilter

end Comparing

/-- A query with a single condition. -/
theorem query_condition (column : Column) (comparator : Comparator) (value : Json) :
    resource.query { filter := .every [⟨column, comparator, value⟩] } =
      ⟨resource.select.statement.sql ++ resource.connector ++ column.reference.statement.sql ++
        " " ++ comparator.sql ++ " ?", [value]⟩ := by
  refine congrArg₂ Statement.mk ?_ (params_query resource _)
  show (resource.query { filter := .every [⟨column, comparator, value⟩] }).sql = _
  simp [query, selectionPhrase, filterClause, Filter.phrase, Sql.Phrase.joined, Condition.phrase,
    Sql.Piece.sql, String.append_assoc]

/-- A query with an order and no condition. -/
theorem query_order (column : Column) (direction : Direction) :
    resource.query { filter := .every [], order := some ⟨column, direction⟩ } =
      ⟨resource.select.statement.sql ++ " ORDER BY " ++ column.reference.statement.sql ++ " " ++
        direction.sql, []⟩ := by
  refine congrArg₂ Statement.mk ?_ (params_query resource _)
  show (resource.query { filter := .every [], order := some ⟨column, direction⟩ }).sql = _
  simp [query, selectionPhrase, filterClause, Order.phrase, Sql.Piece.sql, String.append_assoc]

theorem readList_ordering {name word : String} {column : Column} {direction : Direction}
    (hcolumn : resource.column? name = some column)
    (hword : Direction.ofWord? word = some direction) :
    resource.readList (Params.ordering name word) 0 =
      .ok { filter := .every [], order := some ⟨column, direction⟩ } := by
  have horder : resource.readOrder (Params.ordering name word) =
      .ok (some ⟨column, direction⟩) := by
    have hby : (Params.ordering name word).get? Params.orderBy = some name := rfl
    have hdir : (Params.ordering name word).get? Params.orderDir = some word := rfl
    simp only [readOrder, hby, hdir, hcolumn, hword]
  rw [readList, horder]
  rfl

/-- **Columns as filters and orders.** Every name of a column orders rows. It filters them by
every comparator, exactly when it has no meaning of its own and no column takes the key of its
comparator. -/
theorem name_usable_iff {schema : Schema} {root : Table}
    (hcompile : compile schema root = .ok resource) {column : Column}
    (hcolumn : column ∈ resource.columns) {name : String}
    (hname : column.displayName.matchesText name = true) :
    (∀ comparator token raw value, Comparator.ofToken? token = some comparator →
      comparator.operand? column raw = some value →
      ((resource.readList (Params.comparing name raw token) 0).map resource.query =
          .ok ⟨resource.select.statement.sql ++ resource.connector ++
            column.reference.statement.sql ++ " " ++ comparator.sql ++ " ?", [value]⟩ ↔
        Params.isReserved name = false ∧ ∀ other ∈ resource.columns,
          other.displayName.matchesText (name ++ Params.comparatorEnding) = false)) ∧
    ∀ word direction, Direction.ofWord? word = some direction →
      (resource.readList (Params.ordering name word) 0).map resource.query =
        .ok ⟨resource.select.statement.sql ++ " ORDER BY " ++ column.reference.statement.sql ++
          " " ++ direction.sql, []⟩ := by
  have hfound := (column?_eq_some_iff hcompile).2 ⟨hcolumn, hname⟩
  constructor
  · intro comparator token raw value htoken hvalue
    constructor
    · intro haccepted
      cases hread : resource.readList (Params.comparing name raw token) 0 with
      | error fault =>
        rw [hread] at haccepted
        cases haccepted
      | ok selection =>
        have hfree := not_reserved_of_readList hread
        refine ⟨hfree, fun other hother => Bool.eq_false_iff.2 fun htaken => ?_⟩
        have hsecond := (column?_eq_some_iff hcompile).2 ⟨hother, htaken⟩
        obtain ⟨first, second, rfl⟩ := readList_of_taken hfree hfound hsecond hread
        rw [hread] at haccepted
        have hparams := params_query resource { filter := .every [first, second] }
        rw [Except.ok.inj haccepted] at hparams
        cases hparams
    · rintro ⟨hfree, huntaken⟩
      have hnone : resource.column? (name ++ Params.comparatorEnding) = none :=
        List.find?_eq_none.2 fun other hother => Bool.eq_false_iff.1 (huntaken other hother)
      rw [readList_of_untaken hfree hfound hnone htoken hvalue, ← query_condition]
      rfl
  · intro word direction hword
    rw [readList_ordering hfound hword, ← query_order]
    rfl

end Resource

/-! ## How requests for rows are refused -/

/-- The request itself is at fault. -/
def Fault.IsRefusal (fault : Fault) : Prop :=
  ∃ refusal, fault = .badRequest refusal

namespace Resource

variable {resource : Resource}

private theorem refused {α : Type} (refusal : Refusal) :
    FailsOnly (α := α) Fault.IsRefusal (.error (.badRequest refusal)) :=
  .error ⟨refusal, rfl⟩

theorem failsOnly_paramKindRead (kind : ParamKind) (key raw : String) :
    FailsOnly Fault.IsRefusal (kind.read key raw) := by
  unfold ParamKind.read
  split
  · exact .ok _
  · exact refused _

theorem failsOnly_condition (comparators : Entries (String × String))
    (filter : String × String × Column) :
    FailsOnly Fault.IsRefusal (condition comparators filter) := by
  obtain ⟨key, raw, column⟩ := filter
  have hcomparator : ∀ token, FailsOnly Fault.IsRefusal (Comparator.read token) := by
    intro token
    unfold Comparator.read
    split
    · exact .ok _
    · exact refused _
  have hrest : ∀ comparator : Comparator, FailsOnly Fault.IsRefusal (do
      let value ← if comparator = .like then .ok (Json.str (Params.pattern raw))
        else (ParamKind.ofColumn column).read key raw
      .ok (⟨column, comparator, value⟩ : Condition)) := by
    intro comparator
    dsimp only
    split
    · exact .ok _
    · exact .bind (failsOnly_paramKindRead _ _ _) fun _ _ => .ok _
  unfold condition
  dsimp only
  split
  · exact .bind (hcomparator _) fun comparator _ => hrest comparator
  · exact .bind (.ok _) fun comparator _ => hrest comparator

theorem failsOnly_parts (params : Params) :
    FailsOnly Fault.IsRefusal (resource.parts params) := by
  induction params with
  | nil => exact .ok _
  | cons param rest ih =>
    rw [parts]
    split
    · exact ih
    · split
      · exact refused _
      · exact .bind ih fun _ _ => .ok _

theorem failsOnly_readFilter (params : Params) :
    FailsOnly Fault.IsRefusal (resource.readFilter params) := by
  unfold readFilter
  split
  · unfold searchFilter
    split
    · exact refused _
    · exact .ok _
  · refine .bind (failsOnly_parts params) fun parts _ => ?_
    dsimp only
    split
    · exact refused _
    · exact .bind (.mapM fun filter _ => failsOnly_condition _ filter) fun _ _ => .ok _

theorem failsOnly_readPage (params : Params) (pageLimit : Nat) :
    FailsOnly Fault.IsRefusal (readPage params pageLimit) := by
  unfold readPage
  split
  · split
    · exact .ok _
    · exact refused _
  · split
    · exact refused _
    · split
      · split
        · exact .ok _
        · exact refused _
      · exact refused _

theorem failsOnly_readOrder (params : Params) :
    FailsOnly Fault.IsRefusal (resource.readOrder params) := by
  unfold readOrder
  split
  · exact .ok _
  · split
    · exact refused _
    · split
      · exact .ok _
      · exact refused _
  · exact refused _

/-- Whatever is wrong with the parameters of a list, the request is refused. -/
theorem failsOnly_readList (params : Params) (pageLimit : Nat) :
    FailsOnly Fault.IsRefusal (resource.readList params pageLimit) := by
  refine .bind (failsOnly_readFilter params) fun _ _ => ?_
  refine .bind (failsOnly_readPage params pageLimit) fun page _ => ?_
  refine .bind (failsOnly_readOrder params) fun _ _ => .bind ?_ fun _ _ => .ok _
  unfold checkPage
  split
  · exact .ok _
  · split
    · exact .ok _
    · exact refused _

end Resource

/-! ## Prices of pages -/

/-- Prices of pages, and what each is compared with. -/
def priceCatalog : Catalog where
  databases := ["shop"]
  tables := [("shop", "prices")]
  columns := [⟨"shop", "prices", "id", "int(11)", false, "PRI", false⟩,
    ⟨"shop", "prices", "page", "int(11)", false, "", false⟩,
    ⟨"shop", "prices", "price", "int(11)", false, "", false⟩,
    ⟨"shop", "prices", "price_comp", "varchar(8)", false, "", false⟩]

def priceTable : Table :=
  ((priceCatalog.toSchema [] []).table? "shop.prices").getD default

def prices : Resource :=
  (Resource.compile (priceCatalog.toSchema [] []) priceTable).toOption.get (by decide +kernel)

def priceColumn (name : String) : Column :=
  (prices.column? name).getD default

/-- Identifiers are compared with a number, and pages ordered. -/
theorem prices_filtered_and_ordered :
    Resource.compile (priceCatalog.toSchema [] []) priceTable = .ok prices ∧
      priceColumn "id" ∈ prices.columns ∧ priceColumn "page" ∈ prices.columns ∧
      Comparator.ofToken? "gte" = some .gte ∧
      Comparator.gte.operand? (priceColumn "id") " 7" = some (.int 7) ∧
      (prices.readList (Params.comparing "id" " 7" "gte") 0).map prices.query =
        .ok ⟨"SELECT t1.`id`, t1.`page`, t1.`price`, t1.`price_comp` FROM `shop`.`prices` AS t1 " ++
          "WHERE t1.`id` >= ?", [.int 7]⟩ ∧
      (prices.readList (Params.ordering "page" "desc") 0).map prices.query =
        .ok ⟨"SELECT t1.`id`, t1.`page`, t1.`price`, t1.`price_comp` FROM `shop`.`prices` AS t1 " ++
          "ORDER BY t1.`page` DESC", []⟩ := by
  have hcompile : Resource.compile (priceCatalog.toSchema [] []) priceTable = .ok prices :=
    eq_ok_get _
  have hid : priceColumn "id" ∈ prices.columns := by decide +kernel
  have hpage : priceColumn "page" ∈ prices.columns := by decide +kernel
  have htoken : Comparator.ofToken? "gte" = some .gte := by decide +kernel
  have hvalue : Comparator.gte.operand? (priceColumn "id") " 7" = some (.int 7) := by
    decide +kernel
  have hidNamed : (priceColumn "id").displayName.matchesText "id" = true := by decide +kernel
  have hpageNamed : (priceColumn "page").displayName.matchesText "page" = true := by
    decide +kernel
  have hfilter := ((Resource.name_usable_iff hcompile hid hidNamed).1 .gte "gte" " 7" _ htoken
    hvalue).2 ⟨by decide +kernel, by decide +kernel⟩
  have horder := (Resource.name_usable_iff hcompile hpage hpageNamed).2 "desc" .descending
    (by decide +kernel)
  refine ⟨hcompile, hid, hpage, htoken, hvalue, ?_, ?_⟩
  · exact hfilter.trans (by decide +kernel)
  · exact horder.trans (by decide +kernel)

/-- `page` asks for a page and filters nothing; `price_comp` is a filter of its own and does
not pick the comparator of `price`. Both names are those of columns. -/
theorem page_and_price_not_filtered :
    Resource.compile (priceCatalog.toSchema [] []) priceTable = .ok prices ∧
      priceColumn "page" ∈ prices.columns ∧ priceColumn "price" ∈ prices.columns ∧
      (priceColumn "page").displayName.matchesText "page" = true ∧
      (priceColumn "price").displayName.matchesText "price" = true ∧
      Comparator.ofToken? "GT" = some .gt ∧
      Comparator.gt.operand? (priceColumn "page") "3" = some (.int 3) ∧
      Comparator.gt.operand? (priceColumn "price") "3" = some (.int 3) ∧
      (prices.readList (Params.comparing "page" "3" "GT") 0).map prices.query =
        .error (.badRequest .pagingOff) ∧
      (prices.readList (Params.comparing "price" "3" "GT") 0).map prices.query =
        .ok ⟨prices.select.statement.sql ++ " WHERE t1.`price` = ? AND t1.`price_comp` = ?",
          [.int 3, .str "GT"]⟩ := by
  have hcompile : Resource.compile (priceCatalog.toSchema [] []) priceTable = .ok prices :=
    eq_ok_get _
  exact ⟨hcompile, by decide +kernel⟩

end TableApi
