import TableApi.Request.Comparator
import TableApi.Resource.Compile

/-!
# Selections

A selection says which rows of a resource are asked for, in which order, and on
which page. Its query is the resource's SELECT with a clause for each part. All
conditions of a filter must hold; a search holds when any column is like its
pattern, and stands in parentheses because the joins are written beside it.
-/

namespace TableApi

/-- The comparison of a column with a value. -/
structure Condition where
  column : Column
  comparator : Comparator
  value : Json

def Condition.phrase (condition : Condition) : Sql.Phrase :=
  condition.column.reference ++
    [.text (" " ++ condition.comparator.sql ++ " "), .value condition.value]

inductive Filter where
  /-- Those that meet every condition. -/
  | every (conditions : List Condition)
  /-- Those with some column like the pattern. -/
  | search (pattern : String)

/-- The filter in SQL, over the columns of a row. -/
def Filter.phrase (columns : List Column) : Filter → Sql.Phrase
  | every conditions => Sql.Phrase.joined " AND " (conditions.map Condition.phrase)
  | search pattern =>
    let terms := columns.map fun column => Condition.phrase ⟨column, .like, .str pattern⟩
    [.text "("] ++ Sql.Phrase.joined " OR " terms ++ [.text ")"]

/-- Whether an order rises or falls. -/
inductive Direction where
  | ascending | descending
  deriving Repr, DecidableEq

def Direction.sql : Direction → String
  | ascending => "ASC"
  | descending => "DESC"

structure Order where
  column : Column
  direction : Direction

def Order.phrase (order : Order) : Sql.Phrase :=
  [.text " ORDER BY "] ++ order.column.reference ++ [.text (" " ++ order.direction.sql)]

/-- A page, counted from 1, and how many rows a page has. -/
structure Page where
  number : Nat
  limit : Nat
  deriving Repr, DecidableEq

/-- How many rows come before the page. -/
def Page.offset (page : Page) : Nat :=
  (page.number - 1) * page.limit

def Page.phrase (page : Page) : Sql.Phrase :=
  [.text " LIMIT ", .value (.int page.limit), .text " OFFSET ", .value (.int page.offset)]

/-- Which rows are asked for, in which order, and on which page. -/
structure Selection where
  filter : Filter
  order : Option Order := none
  page : Option Page := none

namespace Resource

/-- The filter behind the joins; nothing when all rows are asked for. -/
def filterClause (resource : Resource) : Filter → Sql.Phrase
  | .every [] => []
  | filter => .text resource.connector :: filter.phrase resource.columns

def selectionPhrase (resource : Resource) (selection : Selection) : Sql.Phrase :=
  resource.select ++ resource.filterClause selection.filter ++
    (selection.order.elim [] Order.phrase) ++ (selection.page.elim [] Page.phrase)

def query (resource : Resource) (selection : Selection) : Statement :=
  (resource.selectionPhrase selection).statement

end Resource

end TableApi
