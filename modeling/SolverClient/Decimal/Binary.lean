/-!
# Doubles as exact numbers

A positive finite double is a natural number times a power of two (`Binary`). `nearest` goes the other way: it gives
the double nearest to a fraction, of two equally near ones the one with the even significand. All of it is exact
arithmetic on natural numbers.
-/

namespace SolverClient.Decimal

/-- The positive number `significand * 2 ^ exponent`, together with what its neighbours among the doubles are. -/
structure Binary where
  significand : Nat
  exponent : Int
  /-- The gap to the double below is half the gap to the double above. -/
  narrowBelow : Bool
  deriving DecidableEq

/-- The bit above the fraction: what a step of the exponent adds to the bits of a double, and the leading bit of a
significand that the bits leave out. -/
def hiddenBit : Nat := 0x10000000000000

/-- The bit of the sign. -/
def signBit : Nat := 0x8000000000000000

/-- The bits of positive infinity. -/
def infinityBits : Nat := 0x7FF0000000000000

/-- The bits of the value that is no number. -/
def notNumberBits : Nat := 0x7FF8000000000000

/-- The magnitude of a finite double, from its bits. -/
def Binary.ofBits (bits : UInt64) : Binary :=
  let fraction : Nat := bits.toNat % hiddenBit
  let field : Nat := bits.toNat / hiddenBit % 0x800
  if field = 0 then ⟨fraction, -1074, false⟩
  else ⟨hiddenBit + fraction, (field : Int) - 1075, fraction = 0 && 1 < field⟩

/-- A power with an integer exponent, as a numerator and a denominator. -/
def powFraction (base : Nat) (exponent : Int) : Nat × Nat :=
  (base.pow exponent.toNat, base.pow (-exponent).toNat)

/-- The quotient rounded to the nearest natural number, a half to the even one. -/
def roundQuotient (num den : Nat) : Nat :=
  let q := num / den
  let r := 2 * (num % den)
  if r < den || (r == den && q % 2 == 0) then q else q + 1

/-- The exponent of two with `2 ^ e ≤ num / den < 2 ^ (e + 1)`, for positive arguments. -/
def floorLog (num den : Nat) : Int :=
  let e := (num.log2 : Int) - den.log2
  let (p, q) := powFraction 2 e
  if num * q < den * p then e - 1 else e

/-- The bits of the double nearest to `num / den`. A value past the greatest double by half a gap or more gives
infinity. The significand is added to the bits of the exponent, so that a carry in rounding reaches the next
exponent. -/
def nearestBits (num den : Nat) : Nat :=
  if num = 0 || den = 0 then 0
  else
    let exponent := max (floorLog num den - 52) (-1074)
    let (p, q) := powFraction 2 exponent
    let significand := roundQuotient (num * q) (den * p)
    min infinityBits ((exponent + 1074).toNat * hiddenBit + significand)

/-- The double nearest to `num / den`. -/
def nearest (num den : Nat) : Float := Float.ofBits (UInt64.ofNat (nearestBits num den))

/-- The double nearest to an integer. -/
def ofInt (n : Int) : Float :=
  if n < 0 then -(nearest n.natAbs 1) else nearest n.natAbs 1

/-- The double nearest to a power of ten. -/
def powTen (e : Nat) : Float := nearest (Nat.pow 10 e) 1

end SolverClient.Decimal
