import TableApi.Name
import TableApi.Schema.Policy

/-!
# Columns

A column has its own names, the type tag that the database gives it, its role
among the keys and perhaps a relation to a column of another table. Relations
are addresses, not pointers, so a column may name a target that is not there.
-/

namespace TableApi

/-- The role of a column among the keys of its table. -/
inductive KeyRole where
  | none | primary | foreign | unique | multiple
  deriving Repr, DecidableEq, Inhabited

/-- The role behind the catalog's word for it. -/
def KeyRole.ofCatalog (word : String) : KeyRole :=
  if word = "PRI" then primary
  else if word = "UNI" then unique
  else if word = "MUL" then multiple
  else none

theorem KeyRole.ofCatalog_eq_primary_iff {word : String} :
    ofCatalog word = primary ↔ word = "PRI" := by
  unfold ofCatalog
  split
  · simp [*]
  · split
    · simp [*]
    · split <;> simp [*]

/-- No word of the catalog makes a foreign key: those are set by relations. -/
theorem KeyRole.ofCatalog_ne_foreign (word : String) : ofCatalog word ≠ foreign := by
  unfold ofCatalog
  split
  · decide
  · split
    · decide
    · split <;> decide

structure ColumnRef where
  database : String
  table : String
  column : String
  deriving Repr, DecidableEq, Inhabited

namespace ColumnRef

/-- `database.table`. -/
def tablePath (ref : ColumnRef) : String :=
  ref.database ++ "." ++ ref.table

/-- `database.table.column`. -/
def path (ref : ColumnRef) : String :=
  ref.database ++ "." ++ ref.table ++ "." ++ ref.column

end ColumnRef

structure Column where
  name : String
  /-- `database.table.column`. -/
  qualifiedName : String
  displayName : Name
  /-- `<table alias>.<column>`, once the column is part of a resource. -/
  storageAlias : Option String := Option.none
  table : String
  database : String
  /-- The type as the database words it, such as `varchar(255)`. -/
  typeTag : String
  nullable : Bool := false
  keyRole : KeyRole := .none
  hasDefault : Bool := false
  policy : AccessPolicy
  /-- The column that this one references. -/
  relation : Option ColumnRef := Option.none
  deriving Repr, DecidableEq, Inhabited

namespace Column

/-- A plain column: it shows under its own name and everything is open. -/
def ofType (database table name typeTag : String) : Column :=
  let qualifiedName := database ++ "." ++ table ++ "." ++ name
  { name, qualifiedName, table, database, typeTag
    displayName := { primary := name }
    policy := .openTo qualifiedName }

/-- Whether the column belongs to the primary key. -/
def isPrimary (column : Column) : Bool :=
  column.keyRole == .primary

/-- The column with a relation. It becomes a foreign key, unless it is primary:
a primary key keeps its role. -/
def references (column : Column) (target : ColumnRef) : Column :=
  { column with
    keyRole := if column.keyRole = .primary then .primary else .foreign
    relation := some target }

end Column

end TableApi
