import TableApi.Json
import TableApi.Number.Integer
import TableApi.Number.Nearest

/-!
# Numbers in JSON text

A number without point and exponent that fits 64 bits, signed or unsigned, is an
integer; `-0` and every other number is a float. A float's digits are gathered
into a 64-bit significand and a power of ten. Digits of the whole part beyond
the significand raise the power, digits of the fraction beyond it are dropped.
The significand is then converted and multiplied or divided by one power of ten,
in 64-bit floating-point arithmetic, so the result can differ from the nearest
number in its last place. A result beyond the largest number is no value.
-/

namespace TableApi.Json

structure NumberText where
  negative : Bool
  whole : List Char
  /-- The digits after the point, empty when there is no point. -/
  fraction : List Char
  /-- The exponent's sign and digits, if an exponent is written. -/
  exponent : Option (Bool × List Char)

/-- A significand of at most 64 bits and the power of ten to scale it by. -/
structure Significand where
  digits : Nat
  exponent : Int

namespace Significand

def bound : Nat := UInt64.size

/-- Takes in digits of the whole part: the first that does not fit and all after
it only raise the power. -/
def addWhole (s : Significand) : List Char → Significand
  | [] => s
  | c :: rest =>
    let next := 10 * s.digits + Number.ofDigits [c]
    if next < bound then addWhole { s with digits := next } rest
    else { s with exponent := s.exponent + (rest.length + 1) }

/-- Takes in digits of the fraction: the first that does not fit and all after
it are dropped. -/
def addFraction (s : Significand) : List Char → Significand
  | [] => s
  | c :: rest =>
    let next := 10 * s.digits + Number.ofDigits [c]
    -- A later digit that would fit again is dropped too.
    if next < bound then addFraction ⟨next, s.exponent - 1⟩ rest else s

/-- The power of ten in 64-bit floating point. -/
def power (exponent : Nat) : Float :=
  Float.ofBits (Number.nearest64 false (Nat.pow 10 exponent) 1)

/-- Divides by a power of ten, at most 308 places at a time, until nothing is
left to divide. -/
def divide (x : Float) (exponent : Nat) : Float :=
  if exponent ≤ 308 then x / power exponent
  else if x == 0 then x
  else divide (x / power 308) (exponent - 308)
termination_by exponent

/-- The float a significand stands for, if it is not beyond the largest. -/
def toFloat? (s : Significand) : Option Float :=
  let x := s.digits.toUInt64.toFloat
  match s.exponent with
  | .ofNat e =>
    if e ≤ 308 then
      let y := x * power e
      if y.isInf then none else some y
    else if x == 0 then some x else none
  | .negSucc e => some (divide x (e + 1))

end Significand

/-- The significand and power of ten of a written number. -/
def NumberText.significand (n : NumberText) : Significand :=
  let s := ((⟨0, 0⟩ : Significand).addWhole n.whole).addFraction n.fraction
  match n.exponent with
  | none => s
  | some (true, digits) => { s with exponent := s.exponent - Number.ofDigits digits }
  | some (false, digits) => { s with exponent := s.exponent + Number.ofDigits digits }

/-- The float that a written number stands for. -/
def NumberText.float? (n : NumberText) : Option Json :=
  n.significand.toFloat?.map fun x =>
    .float (if n.negative then x.toBits ||| Number.signBit64 else x.toBits)

/-- The value of a written number, if it has one. -/
def NumberText.value? (n : NumberText) : Option Json :=
  let size := Number.ofDigits n.whole
  if !n.fraction.isEmpty || n.exponent.isSome then n.float?
  else if n.negative then
    if 0 < size ∧ size ≤ Number.signedBound then some (.int (-(size : Int))) else n.float?
  else if size < UInt64.size then some (.int size) else n.float?

end TableApi.Json
