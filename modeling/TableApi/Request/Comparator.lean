import TableApi.Fault
import TableApi.Text.Cut

/-!
# Comparators

A filter compares a column with a value. The comparator is named by a token in
either case; without one, values are compared for equality.
-/

namespace TableApi

/-- How a column is compared with a value. -/
inductive Comparator where
  | eq | like | gt | lt | gte | lte | ne
  deriving Repr, DecidableEq

namespace Comparator

/-- The comparator that a token names. -/
def ofToken? (token : String) : Option Comparator :=
  let word := Text.upper token
  if word = "EQ" then some eq
  else if word = "LIKE" then some like
  else if word = "GT" then some gt
  else if word = "LT" then some lt
  else if word = "GTE" then some gte
  else if word = "LTE" then some lte
  else if word = "NE" then some ne
  else none

/-- The comparator that a token names; any other token is refused. -/
def read (token : String) : Except Fault Comparator :=
  match ofToken? token with
  | some comparator => .ok comparator
  | none => .error (.badRequest (.unknownComparator token))

def sql : Comparator → String
  | eq => "="
  | like => "LIKE"
  | gt => ">"
  | lt => "<"
  | gte => ">="
  | lte => "<="
  | ne => "<>"

end Comparator

end TableApi
