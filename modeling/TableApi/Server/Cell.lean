import TableApi.Json.Text
import TableApi.Number.Shortest
import TableApi.Server.Moment
import TableApi.Text.Cut
import TableApi.Text.Utf8

/-!
# Cells

The database sends a cell in a form that depends on the type of its column. How
it becomes a JSON value follows from the name of that type. NULL is null in every
column, and so is the zero date. A column type without a rule of its own has bytes
for cells; they are read as text, and what is not UTF-8 in them becomes U+FFFD. A
JSON cell that does not parse stays a text, and a date or time that no calendar or
clock shows is taken for its bytes.
-/

namespace TableApi

inductive CellKind where
  | null | bool | int | unsigned | float | double | date | time | dateTime | timestamp
  | json | text
  deriving Repr, DecidableEq

/-- The kind for a type name, in either case. -/
def CellKind.ofType (typeName : String) : CellKind :=
  let name := Text.upper typeName
  if name = "NULL" then null
  else if name = "BOOLEAN" then bool
  else if ["TINYINT", "SMALLINT", "MEDIUMINT", "INT", "BIGINT"].contains name then int
  else if (Text.dropEnding? " UNSIGNED" name).isSome then unsigned
  else if name = "FLOAT" then float
  else if name = "DOUBLE" then double
  else if name = "DATE" then date
  else if name = "TIME" then time
  else if name = "DATETIME" then dateTime
  else if name = "TIMESTAMP" then timestamp
  else if name = "JSON" then json
  else text

inductive Cell where
  | null
  | int (n : Int)
  | single (bits : UInt32)
  | double (bits : UInt64)
  | day (day : Day)
  | clock (clock : Clock)
  | moment (moment : Moment)
  | bytes (bytes : List UInt8)
  deriving Repr

namespace Cell

/-- A single-precision number, by its shortest decimal; null if it is not
finite. -/
def ofSingle (bits : UInt32) : Json :=
  match Number.widen? bits with
  | some wide => .float wide
  | none => .null

/-- A double-precision number; null if it is not finite. -/
def ofDouble (bits : UInt64) : Json :=
  if Number.isFinite64 bits then .float bits else .null

def ofBytes (kind : CellKind) (bytes : List UInt8) : Json :=
  let text := Text.Utf8.decodeLenient bytes
  match kind, Text.Utf8.decode? bytes with
  | .json, some whole => (Json.ofText? whole).getD (.str text)
  | _, _ => .str text

/-- The value of a cell in a column of a kind. -/
def value (kind : CellKind) : Cell → Json
  | null => .null
  | int n => if kind = .bool then .bool (n != 0) else .int n
  | single bits => ofSingle bits
  | double bits => ofDouble bits
  | day d =>
    if d = .zero then .null
    else if d.isReal then .str d.text
    else ofBytes kind d.bytes
  | clock c => if c.isPlain then .str c.text else ofBytes kind c.bytes
  | moment m =>
    if m = .zero then .null
    else if m.isReal then .str (if kind = .timestamp then m.text ++ "+00:00" else m.text)
    else ofBytes kind m.bytes
  | bytes b => ofBytes kind b

end Cell

end TableApi
