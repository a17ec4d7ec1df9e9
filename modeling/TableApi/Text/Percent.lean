import TableApi.Entries
import TableApi.Text.Cut
import TableApi.Text.Utf8

/-!
# Percent escapes and query strings

In a request target a byte may be written as a percent sign and two hexadecimal
digits. An escape that is broken off or has other characters stands for itself.
A path segment must be UTF-8 after unescaping; a query string is read leniently,
with `+` for a blank.
-/

namespace TableApi.Text.Percent

/-- The value of a byte that is a hexadecimal digit. -/
def hexValue? (b : UInt8) : Option UInt8 :=
  if 0x30 ≤ b ∧ b ≤ 0x39 then some (b - 0x30)
  else if 0x41 ≤ b ∧ b ≤ 0x46 then some (b - 0x41 + 10)
  else if 0x61 ≤ b ∧ b ≤ 0x66 then some (b - 0x61 + 10)
  else none

def unescape : List UInt8 → List UInt8
  | 0x25 :: a :: b :: rest => match hexValue? a, hexValue? b with
    | some x, some y => (16 * x + y) :: unescape rest
    | _, _ => 0x25 :: unescape (a :: b :: rest)
  | b :: rest => b :: unescape rest
  | [] => []

/-- The text of a path segment, if it is UTF-8. -/
def segment? (text : String) : Option String :=
  Utf8.decode? (unescape (Utf8.encode text))

/-- The text of a name or value in a query string. -/
def formText (text : String) : String :=
  Utf8.decodeLenient (unescape (Utf8.encode (replaceChar '+' " " text)))

/-- The name and value of a part of a query string. -/
def formPair (part : String) : String × String :=
  match cutFirst '=' part with
  | some (name, value) => (formText name, formText value)
  | none => (formText part, "")

/-- The parameters of a query string, in ascending order. Empty parts count for
nothing, and of two values for one name the later counts. -/
def form (query : String) : Entries String :=
  Entries.sorted (((split '&' query).filter fun part => !part.isEmpty).map formPair)

end TableApi.Text.Percent
