import TableApi.Fault
import TableApi.Server.Cell
import TableApi.Sql.Bound
import TableApi.Sql.Statement

/-!
# Commands to a database server

A command is SQL text with typed parameters; the server answers with typed rows
and a count of the rows it touched, or with a failure. `Wire` is the way to a
server, known only by how each command changes its state.
-/

namespace TableApi

/-- SQL text with its parameters as they are sent. -/
structure Command where
  sql : String
  params : List Sql.Bound := []
  deriving Repr, DecidableEq

/-- The command for a statement: every value as a parameter of its own. -/
def Command.ofStatement (statement : Statement) : Command :=
  ⟨statement.sql, statement.params.map .ofJson⟩

structure Outcome where
  /-- The type names of the columns. -/
  columns : List String := []
  rows : List (List Cell) := []
  /-- How many rows were touched. -/
  affected : Nat := 0
  deriving Repr

def Outcome.values (outcome : Outcome) : List (List Json) :=
  let kinds := outcome.columns.map CellKind.ofType
  outcome.rows.map fun row => (kinds.zip row).map fun (kind, cell) => cell.value kind

structure Wire (σ : Type) where
  /-- Signs on, with host, port, user and password. -/
  signOn : String → Nat → String → String → StateM σ (Except DatabaseFault Unit)
  send : Command → StateM σ (Except DatabaseFault Outcome)

end TableApi
