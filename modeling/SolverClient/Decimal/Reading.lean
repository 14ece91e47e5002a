import SolverClient.Decimal.Binary
import SolverClient.Text.Numeral

/-!
# Reading the text of a double

`readFloat` reads a decimal with an optional sign, fraction and exponent, or one of the names for infinity and
for no number, and gives the nearest double. Exponents far outside the range of doubles are settled by the
number of digits alone, so that no large power is computed.
-/

namespace SolverClient.Decimal

open SolverClient.Text

/-- The double nearest to `mantissa * 10 ^ exponent`, where the mantissa has `count` digits. -/
def nearestScaled (mantissa count : Nat) (exponent : Int) : Float :=
  if mantissa = 0 || exponent + count < -400 then 0.0
  else if 400 < exponent then Float.ofBits (UInt64.ofNat infinityBits)
  else
    let (p, q) := powFraction 10 exponent
    nearest (mantissa * p) q

/-- An exponent: digits after an optional sign, and nothing else. -/
def readExponent (cs : List Char) : Option Int :=
  let signed : Bool × List Char :=
    match cs with
    | '-' :: ds => (true, ds)
    | '+' :: ds => (false, ds)
    | ds => (false, ds)
  if signed.2.isEmpty || !signed.2.all isDigit then none
  else
    let n : Int := digitsValue signed.2 0
    some (if signed.1 then -n else n)

/-- A decimal without sign: digits with at most one point and at least one digit, then an optional exponent. -/
def readMagnitude (cs : List Char) : Option Float :=
  let whole := cs.takeWhile isDigit
  let afterWhole := cs.dropWhile isDigit
  let (fraction, rest) : List Char × List Char :=
    match afterWhole with
    | '.' :: ds => (ds.takeWhile isDigit, ds.dropWhile isDigit)
    | ds => ([], ds)
  let digits := whole ++ fraction
  let value (e : Int) : Float := nearestScaled (digitsValue digits 0) digits.length (e - fraction.length)
  if digits.isEmpty then none
  else
    match rest with
    | [] => some (value 0)
    | c :: ds => if c = 'e' || c = 'E' then (readExponent ds).map value else none

/-- A decimal without sign, or a name in any case. -/
def readUnsigned (cs : List Char) : Option Float :=
  let name := String.ofList (cs.map Char.toLower)
  if name = "inf" || name = "infinity" then some (Float.ofBits (UInt64.ofNat infinityBits))
  else if name = "nan" then some (Float.ofBits (UInt64.ofNat notNumberBits))
  else readMagnitude cs

/-- The double that a text stands for. -/
def readFloat (s : String) : Option Float :=
  match s.toList with
  | '-' :: cs => (readUnsigned cs).map (-·)
  | '+' :: cs => readUnsigned cs
  | cs => readUnsigned cs

end SolverClient.Decimal
