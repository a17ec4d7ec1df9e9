import TableApi.Schema.Column
import TableApi.Sql.Statement

/-!
# References to columns

A column that is part of a resource is referred to through the alias of its
table, as in `t1.id`; any other by its own name. Only the column's name is
quoted, since the aliases are made here.
-/

namespace TableApi.Column

def reference (column : Column) : Sql.Phrase :=
  match column.storageAlias.bind (Text.cutFirst '.') with
  | some (owner, name) => [.text (owner ++ "."), .name name]
  | none => [.name column.name]

end TableApi.Column
