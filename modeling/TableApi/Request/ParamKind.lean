import TableApi.Json
import TableApi.Number.Decimal
import TableApi.Schema.Column
import TableApi.Text.Blank
import TableApi.Text.Cut

/-!
# Kinds of parameters

A request parameter is text. How it is read before it is bound to a statement
follows from the type of the column it is compared with. The type tag is searched
for words in a fixed order, and the first that occurs decides; a type without any
of them takes the text as it is.
-/

namespace TableApi

inductive ParamKind where
  | text | boolean | integer | float | untyped
  deriving Repr, DecidableEq

namespace ParamKind

def ofColumn (column : Column) : ParamKind :=
  let tag := Text.lower column.typeTag
  if Text.holds "char" tag || Text.holds "text" tag then text
  else if Text.holds "tinyint" tag then boolean
  else if Text.holds "int" tag then integer
  else if Text.holds "float" tag || Text.holds "real" tag then float
  else untyped

/-- What a parameter must be, for the refusal of one that is not. -/
def expectation : ParamKind → String
  | text | untyped => "text"
  | boolean => "a boolean"
  | integer => "an integer"
  | float => "a number"

/-- The value of a text, if it is of the kind. An integer is read as a signed
one of 64 bits and, when that fails, as one without a sign bit. -/
def value? (kind : ParamKind) (raw : String) : Option Json :=
  match kind with
  | text | untyped => some (.str raw)
  | boolean =>
    let word := Text.lower raw
    if word = "true" ∨ word = "1" then some (.bool true)
    else if word = "false" ∨ word = "0" then some (.bool false)
    else none
  | integer => (Number.integer64? (Text.trim raw)).map .int
  | float => (Number.decimal? (Text.trim raw)).map .float

/-- The value of the parameter `key`; a text of another kind is refused. -/
def read (kind : ParamKind) (key raw : String) : Except Fault Json :=
  match kind.value? raw with
  | some value => .ok value
  | none => .error (.badRequest (.badValue key kind.expectation raw))

end ParamKind

end TableApi
