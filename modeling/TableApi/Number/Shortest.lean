import TableApi.Number.Decimal

/-!
# Shortest decimal of a binary number

Of all decimals that round to a given floating-point number, `shortest?` takes one
with the fewest digits and of two such the nearer; which of two equally near ones
is left to the caller. Decimals are tried grid by grid, from the coarsest that can
matter on, and all comparisons are between natural numbers.

A single-precision cell holds `1.1` as a number that is not 1.1; widening its bits
would show digits that nobody wrote. `widen?` goes through the shortest decimal
instead.
-/

namespace TableApi.Number

/-- A positive number `mantissa · 2 ^ place` of a binary format, with the size of
the gap to its lower neighbour. -/
structure Binary where
  mantissa : Nat
  place : Int
  /-- Whether the next smaller number is only half a place away. -/
  narrowBelow : Bool

/-- Which of two decimals is taken that are equally near. -/
inductive Tie where
  | larger
  | even
  deriving Repr, DecidableEq

namespace Binary

/-- The number that a pattern stands for but for its sign, if it is finite and not
zero. -/
def ofPattern? (f : BinaryFormat) (pattern : Nat) : Option Binary :=
  let least : Int := -(f.leastPlace : Int)
  let stored := pattern % f.hiddenBit
  let exponent := pattern / f.hiddenBit % (f.top + 1)
  if exponent = f.top then none
  else if exponent = 0 then
    if stored = 0 then none else some ⟨stored, least, false⟩
  else some ⟨f.hiddenBit + stored, least + (exponent - 1), stored = 0 ∧ 1 < exponent⟩

/-- The value in quarters of a place, over a common denominator: the number
itself, and the two ends of the interval of reals that round to it. -/
structure Interval where
  value : Nat
  low : Nat
  high : Nat
  den : Nat
  /-- Whether the ends themselves round to the number. -/
  closed : Bool

/-- The interval of reals that round to the number. -/
def interval (x : Binary) : Interval :=
  let v := 4 * x.mantissa
  -- Half a place is two quarters; below a power of two the gap is half as wide.
  let low := v - (if x.narrowBelow then 1 else 2)
  let scale (n : Nat) : Nat := match x.place with
    | .ofNat e => n <<< e
    | .negSucc _ => n
  let den : Nat := match x.place with
    | .ofNat _ => 4
    | .negSucc e => 4 <<< (e + 1)
  ⟨scale v, scale low, scale (v + 2), den, x.mantissa % 2 = 0⟩

namespace Interval

/-- Whether `digits · 10 ^ exponent` lies in the interval. -/
def holds (i : Interval) (digits : Nat) (exponent : Int) : Bool :=
  let (n, d) : Nat × Nat := match exponent with
    | .ofNat e => (digits * Nat.pow 10 e * i.den, 1)
    | .negSucc e => (digits * i.den, Nat.pow 10 (e + 1))
  if i.closed then i.low * d ≤ n ∧ n ≤ i.high * d else i.low * d < n ∧ n < i.high * d

/-- The decimal with steps of `10 ^ exponent` that lies in the interval, the
nearer of the two around the value. -/
def onGrid? (i : Interval) (tie : Tie) (exponent : Int) : Option Nat :=
  let (n, d) : Nat × Nat := match exponent with
    | .ofNat e => (i.value, i.den * Nat.pow 10 e)
    | .negSucc e => (i.value * Nat.pow 10 (e + 1), i.den)
  let below := n / d
  let twice := 2 * (n % d)
  -- If any point of the grid lies in the interval, one of these two does.
  match i.holds below exponent, i.holds (below + 1) exponent with
  | true, true =>
    some (if twice < d ∨ (twice = d ∧ tie = .even ∧ below % 2 = 0) then below else below + 1)
  | true, false => some below
  | false, true => some (below + 1)
  | false, false => none

/-- The first hit on grids of falling steps, from `10 ^ exponent` on. -/
def search (i : Interval) (tie : Tie) : Nat → Int → Option (Nat × Int)
  | 0, _ => none
  | steps + 1, exponent => match i.onGrid? tie exponent with
    | some digits => some (digits, exponent)
    | none => i.search tie steps (exponent - 1)

/-- The exponent of a grid whose first step is beyond the interval, and by less
than a hundredfold. -/
def topGrid (i : Interval) : Int :=
  ((Nat.toDigits 10 i.high).length : Int) - (Nat.toDigits 10 i.den).length + 1

end Interval

/-- The shortest decimal of a number, as digits and a power of ten. Seventeen
digits tell all 64-bit numbers apart, so twenty grids are enough. -/
def shortest? (tie : Tie) (x : Binary) : Option (Nat × Int) :=
  x.interval.search tie 20 x.interval.topGrid

end Binary

/-- The 64-bit pattern of a finite 32-bit number read through its shortest
decimal, of two equally near the larger. -/
def widen? (bits : UInt32) : Option UInt64 :=
  let negative := bits ≥ 0x80000000
  if bits &&& 0x7FFFFFFF = 0 then some (nearest64 negative 0 1)
  else do
    let x ← Binary.ofPattern? binary32 bits.toNat
    let (digits, exponent) ← x.shortest? .larger
    some (decimal64 negative digits exponent)

end TableApi.Number
