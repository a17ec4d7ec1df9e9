import TableApi.Number.Integer
import TableApi.Number.Nearest

/-!
# Decimal fractions as floating-point numbers

A decimal number is written as an optional sign, digits with at most one point
among them and at least one digit in all, and an optional exponent. It stands
for the 64-bit number nearest to its value. The words for infinity and for a
value that is no number belong to the grammar too, but have no finite value, so
`decimal?` refuses them with everything that rounds to infinity.
-/

namespace TableApi.Number

/-- The 64-bit pattern nearest to `digits · 10 ^ exponent`. An exponent that
puts the value beyond every 64-bit number, or below half of the least one, is
settled without computing the power. -/
def decimal64 (negative : Bool) (digits : Nat) (exponent : Int) : UInt64 :=
  -- The value is below the power of ten of `size`, and at least a tenth of it.
  let size : Int := (Nat.toDigits 10 digits).length + exponent
  if digits = 0 ∨ size < -330 then nearest64 negative 0 1
  else if size > 320 then nearest64 negative (Nat.pow 10 320) 1
  else match exponent with
    | .ofNat n => nearest64 negative (digits * Nat.pow 10 n) 1
    | .negSucc n => nearest64 negative digits (Nat.pow 10 (n + 1))

/-- The value of an exponent's characters: an optional sign and digits. -/
def exponent? (chars : List Char) : Option Int :=
  match chars with
  | '-' :: digits => (natural? digits).map fun n => -(n : Int)
  | '+' :: digits => (natural? digits).map Int.ofNat
  | digits => (natural? digits).map Int.ofNat

/-- The number that unsigned characters stand for. -/
def unsignedDecimal? (negative : Bool) (chars : List Char) : Option UInt64 :=
  let whole := chars.takeWhile Char.isDigit
  let afterWhole := chars.dropWhile Char.isDigit
  let (fraction, rest) := match afterWhole with
    | '.' :: more => (more.takeWhile Char.isDigit, more.dropWhile Char.isDigit)
    | _ => ([], afterWhole)
  let exponent := match rest with
    | [] => some 0
    | 'e' :: more => exponent? more
    | 'E' :: more => exponent? more
    | _ => none
  if whole.isEmpty && fraction.isEmpty then none
  else exponent.map fun e =>
    decimal64 negative (ofDigits (whole ++ fraction)) (e - fraction.length)

/-- The finite 64-bit number nearest to a decimal text. -/
def decimal? (text : String) : Option UInt64 :=
  let bits := match text.toList with
    | '-' :: chars => unsignedDecimal? true chars
    | '+' :: chars => unsignedDecimal? false chars
    | chars => unsignedDecimal? false chars
  bits.filter isFinite64

end TableApi.Number
