import TableApi.Json
import TableApi.Number.Integer
import TableApi.Text.Blank
import TableApi.Text.Cut

/-!
# Generated identifiers

A primary key that a client leaves out is generated. The generator of a table
follows from the type of its primary key: integers stay within the column's
range, strings are the 32 hexadecimal digits of a version-4 UUID, cut to the
column's length. What a generator yields is a function of 128 random bits, so
everything about its range can be said without a source of randomness.
-/

namespace TableApi

abbrev Uuid : Type := BitVec 128

namespace Uuid

/-- The version-4 UUID made of random bits: the four version bits are 0100, the
two variant bits 10. -/
def ofRandom (bits : BitVec 128) : Uuid :=
  (bits &&& 0xFFFFFFFFFFFF0FFF3FFFFFFFFFFFFFFF#128) ||| 0x00000000000040008000000000000000#128

/-- The last `count` hexadecimal digits of a number, most significant first. -/
def hexDigits (n : Nat) : Nat → List Char
  | 0 => []
  | count + 1 => hexDigits (n / 16) count ++ [Nat.digitChar (n % 16)]

/-- The 32 digits of a UUID, without hyphens. -/
def digits (uuid : Uuid) : List Char :=
  hexDigits uuid.toNat 32

end Uuid

/-- How a table's identifiers come about. -/
inductive IdGenerator where
  /-- The digits of a UUID. -/
  | uuid
  /-- The first digits of a UUID, at least one. -/
  | shortUuid (length : Nat)
  /-- An integer between 1 and `max`, or 1 when `max` is less. -/
  | upTo (max : Int)
  /-- Values supplied from outside, by number. -/
  | supplied (number : Nat)
  deriving Repr, DecidableEq, Inhabited

namespace IdGenerator

def uuidLength : Nat := 32

/-- The length in parentheses of a type tag, as in `char(8)`. -/
def declaredLength? (tag : String) : Option Nat := do
  let (_, rest) ← Text.cutFirst '(' tag
  let (length, _) ← Text.cutFirst ')' rest
  Number.naturalBelow? UInt64.size (Text.trim length)

/-- The type's name in a tag: what stands before a parenthesis or a blank. -/
def baseType (tag : String) : String :=
  String.ofList (tag.toList.takeWhile fun c => c ≠ '(' && !Text.isBlank c)

/-- The largest value of the positive half of a 32-bit integer. -/
def wideMax : Int := 2147483647

/-- The generator suited to a column type. The types `int`, `integer` and
`bigint` share a range that fits them all. -/
def forType (typeTag : String) : IdGenerator :=
  let tag := Text.lower (Text.trim typeTag)
  let base := baseType tag
  let unsigned := Text.holds "unsigned" tag
  if base = "tinyint" then upTo (if unsigned then 255 else 127)
  else if base = "smallint" then upTo (if unsigned then 65535 else 32767)
  else if base = "mediumint" then upTo (if unsigned then 16777215 else 8388607)
  else if base = "int" ∨ base = "integer" ∨ base = "bigint" then upTo wideMax
  else if base = "char" ∨ base = "varchar" then
    match declaredLength? tag with
    | some length => if length < uuidLength then shortUuid length else uuid
    | none => uuid
  else uuid

/-- The identifier that a generator makes of a UUID; a supplied one is not made
here and gives nothing. -/
def make? (generator : IdGenerator) (id : Uuid) : Option Json :=
  match generator with
  | uuid => some (.str (String.ofList id.digits))
  | shortUuid length => some (.str (String.ofList (id.digits.take (max length 1))))
  -- Remainders run from 0, identifiers from 1.
  | upTo top => some (.int ((id.toNat : Int) % max top 1 + 1))
  | supplied _ => none

end IdGenerator

end TableApi
