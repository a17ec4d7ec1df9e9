import TableApi.Resource.Shape
import TableApi.Sql.Reference

/-!
# Mounting tables

A resource joins its root table with every table that foreign keys lead to.
Mounting a table gives it the next alias, `t1`, `t2`, … in the order of discovery,
and walks its visible columns in order: a column with a live relation adds a join
and mounts the target below it, with the column's display name and an underscore
in front of all display names there. So tables, joins and required names come out
in the order of one depth-first walk.

The walk follows at most sixteen relations, joins at most sixty-one tables and
refuses to enter a table that it is already inside of. The first of these faults
that the walk meets is reported.
-/

namespace TableApi

/-- The equality of a foreign key and the column it references. -/
structure Join where
  leftAlias : String
  leftColumn : String
  rightAlias : String
  rightColumn : String
  deriving Repr, DecidableEq, Inhabited

namespace Join

/-- The join for readers, without quotes. -/
def display (join : Join) : String :=
  join.leftAlias ++ "." ++ join.leftColumn ++ " = " ++ join.rightAlias ++ "." ++ join.rightColumn

def condition (join : Join) : Sql.Phrase :=
  [.text (join.leftAlias ++ "."), .name join.leftColumn,
    .text (" = " ++ join.rightAlias ++ "."), .name join.rightColumn]

end Join

/-- The alias of the table that is discovered at an index counted from 0. -/
def tableAlias (index : Nat) : String :=
  "t" ++ toString (index + 1)

/-- How many relations are followed from a root table. -/
def maxHops : Nat := 16

/-- How many tables one SELECT may join. -/
def maxTables : Nat := 61

def Column.mounted (column : Column) (owner lead : String) : Column :=
  { column with
    storageAlias := some (owner ++ "." ++ column.name)
    displayName := column.displayName.behind lead }

/-- The table that a column's relation leads to and the name of the column it
references there. A relation into something excluded is not live: the column is
then a plain one. -/
def Schema.liveTarget? (schema : Schema) (column : Column) :
    Except SchemaFault (Option (Table × String)) :=
  match column.relation with
  | none => .ok none
  | some target => match schema.table? target.tablePath with
    | none => .error (.missingReference "table" target.tablePath)
    | some table => match table.column? target.column with
      | none => .error (.missingReference "field" target.path)
      | some referenced =>
        let shut := ((schema.database? table.database).any fun d => d.policy.excluded)
          || table.policy.excluded || referenced.policy.excluded
        .ok (if shut then none else some (table, target.column))

/-- What mounting a table adds to a resource, in the order of discovery. -/
structure Mounted where
  root : Placed
  /-- The tables below the root. -/
  below : List Table
  joins : List Join
  /-- For each table, the root first, the display names that a new row needs. -/
  required : List (List String)
  /-- The root's columns and branches under their keys. -/
  entries : Entries Slot
  deriving Inhabited

/-- What mounting some columns of a table adds to a resource. -/
structure Grown where
  below : List Table := []
  joins : List Join := []
  /-- The display names that a new row of the table itself needs. -/
  required : List String := []
  /-- The same for the tables below. -/
  requiredBelow : List (List String) := []
  /-- Columns and branches in the order in which they are written. -/
  entries : List (String × Slot) := []
  deriving Inhabited

/-- Mounts columns of the table with the given alias. `next` is the index of the
next table, `mountBelow` mounts it. -/
def Schema.mountColumns (schema : Schema)
    (mountBelow : Nat → String → Table → Except SchemaFault Mounted) (owner lead : String) :
    Nat → List Column → Except SchemaFault Grown
  | _, [] => .ok {}
  | next, source :: rest => do
    let column := source.mounted owner lead
    match ← schema.liveTarget? column with
    | none =>
      let others ← schema.mountColumns mountBelow owner lead next rest
      .ok { others with
        required :=
          if column.isPrimary then others.required
          else column.displayName.primary :: others.required
        entries := (column.qualifiedName, .column column) :: others.entries }
    | some (table, referenced) =>
      let child ← mountBelow next (column.displayName.primary ++ "_") table
      -- The later columns number their tables behind all those of this branch.
      let others ←
        schema.mountColumns mountBelow owner lead (next + 1 + child.below.length) rest
      .ok
        { below := child.root.table :: child.below ++ others.below
          joins := ⟨owner, source.name, tableAlias next, referenced⟩ ::
            child.joins ++ others.joins
          required := others.required
          requiredBelow := child.required ++ others.requiredBelow
          entries := (column.qualifiedName, .column column) ::
            (column.branchKey, .branch child.root child.entries) :: others.entries }

/-- Mounts a table at an index, with `lead` in front of its display names.
`path` holds the tables that the walk is inside of, the outermost first, and
`hops` says how many more may be entered. -/
def Schema.mountTable (schema : Schema) (hops : Nat) (path : List String) (index : Nat)
    (lead : String) (table : Table) : Except SchemaFault Mounted :=
  let path' := path ++ [table.qualifiedName]
  if path.contains table.qualifiedName then .error (.cyclic (" -> ".intercalate path'))
  else match hops with
    | 0 => .error (.depthExceeded maxHops)
    | hops + 1 =>
      -- As many tables as `index` says are mounted already.
      if maxTables ≤ index then .error (.tooManyTables maxTables)
      else do
        let owner := tableAlias index
        let grown ← schema.mountColumns (schema.mountTable hops path') owner lead (index + 1)
          table.visibleColumns
        .ok
          { root := ⟨index, { table with storageAlias := some owner }⟩
            below := grown.below
            joins := grown.joins
            required := grown.required :: grown.requiredBelow
            entries := Entries.ofList grown.entries }

end TableApi
