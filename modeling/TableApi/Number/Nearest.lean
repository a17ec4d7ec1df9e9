/-!
# Nearest binary floating-point number

A binary format has `fraction` stored bits of significand and a least exponent.
`nearest` rounds a quotient of natural numbers to the nearest number of the
format, a tie to the even significand, in exact arithmetic: the exponent is
chosen so that the scaled quotient lies between `2 ^ fraction` and
`2 ^ (fraction + 1)`, or is the least one for small numbers, and the remainder of
one division decides the rounding. The bit pattern is the biased exponent
followed by the stored bits, so a carry out of the significand lands in the
exponent by itself.
-/

namespace TableApi.Number

structure BinaryFormat where
  /-- Stored bits of the significand. -/
  fraction : Nat
  /-- The exponent of the last place of the smallest numbers, negated. -/
  leastPlace : Nat
  /-- The biased exponent of infinities. -/
  top : Nat

def binary64 : BinaryFormat := ⟨52, 1074, 2047⟩

def binary32 : BinaryFormat := ⟨23, 149, 255⟩

namespace BinaryFormat

/-- The leading bit of a normal significand, which is not stored. -/
def hiddenBit (f : BinaryFormat) : Nat := 1 <<< f.fraction

/-- `num / den` divided by `2 ^ place`, as a quotient of natural numbers. -/
def scaled (num den : Nat) (place : Int) : Nat × Nat :=
  match place with
  | .ofNat n => (num, den <<< n)
  | .negSucc n => (num <<< (n + 1), den)

/-- The quotient rounded to the nearest natural number, a tie to the even one. -/
def roundEven (num den : Nat) : Nat :=
  let q := num / den
  let r := 2 * (num % den)
  if r < den ∨ (r = den ∧ q % 2 = 0) then q else q + 1

/-- Rounding moves a quotient by at most one half. -/
theorem roundEven_within_half (num : Nat) {den : Nat} (h : 0 < den) :
    2 * (roundEven num den * den) ≤ 2 * num + den ∧
      2 * num ≤ 2 * (roundEven num den * den) + den := by
  have hsplit : den * (num / den) + num % den = num := Nat.div_add_mod num den
  have hrest : num % den < den := Nat.mod_lt _ h
  have hcomm : num / den * den = den * (num / den) := Nat.mul_comm _ _
  have hnext : (num / den + 1) * den = den * (num / den) + den := by
    rw [Nat.add_mul, Nat.one_mul, hcomm]
  unfold roundEven
  simp only []
  split
  · rw [hcomm]; omega
  · rw [hnext]; omega

/-- The exponent of the last place of the numbers around `num / den`. -/
def place (f : BinaryFormat) (num den : Nat) : Int :=
  let guess : Int := (num.log2 : Int) - (den.log2 : Int) - (f.fraction : Int)
  -- The quotient over the guessed place lies between half the hidden bit and twice it.
  let (n, d) := scaled num den guess
  let exact := if n / d < f.hiddenBit then guess - 1 else guess
  max exact (-(f.leastPlace : Int))

/-- The bit pattern of the number nearest to `num / den`; infinity's when the
quotient is too large. -/
def nearest (f : BinaryFormat) (num den : Nat) : Nat :=
  if num = 0 then 0
  else
    let p := f.place num den
    let (n, d) := scaled num den p
    let m := roundEven n d
    -- Twice the hidden bit is the next exponent with nothing stored.
    let pattern :=
      if m < f.hiddenBit then m
      else ((p + f.leastPlace).toNat + 1) * f.hiddenBit + (m - f.hiddenBit)
    min pattern (f.top * f.hiddenBit)

end BinaryFormat

/-- The bit of a 64-bit pattern that says the number is negative. -/
def signBit64 : UInt64 := 0x8000000000000000

/-- The 64-bit pattern nearest to `num / den`, negated when asked. -/
def nearest64 (negative : Bool) (num den : Nat) : UInt64 :=
  let bits := (binary64.nearest num den).toUInt64
  if negative then bits ||| signBit64 else bits

/-- Whether a 64-bit pattern is that of a number, neither infinite nor NaN. -/
def isFinite64 (bits : UInt64) : Bool :=
  (bits >>> 52) &&& 0x7FF != 0x7FF

end TableApi.Number
