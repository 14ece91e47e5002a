import SolverClient.Decimal.Shortest

/-!
# The layout of a double

The digits of `shortest` set as text: plainly, with at least one digit on either side of the point, or in
scientific form. A `Format` says which exponents are set plainly and how the scientific form is spelt.
-/

namespace SolverClient.Decimal

/-- How a double is set as text. -/
structure Format where
  /-- The least exponent of the first digit that is set plainly. -/
  lowest : Int
  /-- The greatest exponent of the first digit that is set plainly. -/
  highest : Int
  /-- A positive exponent of the scientific form carries a plus sign. -/
  plusSign : Bool
  tie : Tie

/-- Positional text with at least one digit before and after the point. -/
def plainText (d : Digits) : List Char :=
  let n := d.digits.length
  if d.exponent < 0 then
    ['0', '.'] ++ List.replicate ((-d.exponent).toNat - 1) '0' ++ d.digits
  else
    let whole := d.exponent.toNat + 1
    if n ≤ whole then d.digits ++ List.replicate (whole - n) '0' ++ ['.', '0']
    else d.digits.take whole ++ '.' :: d.digits.drop whole

/-- One digit, the others after a point if there are any, and the exponent. -/
def scientificText (f : Format) (d : Digits) : List Char :=
  let mantissa :=
    match d.digits with
    | [] => ['0']
    | [c] => [c]
    | c :: rest => c :: '.' :: rest
  let sign := if f.plusSign && 0 ≤ d.exponent then ['+'] else []
  mantissa ++ 'e' :: sign ++ (toString d.exponent).toList

/-- The text of a finite double of the given sign and magnitude. -/
def magnitudeText (f : Format) (bits : UInt64) : List Char :=
  let x := Binary.ofBits bits
  if x.significand = 0 then ['0', '.', '0']
  else
    let d := shortest f.tie x
    if f.lowest ≤ d.exponent && d.exponent ≤ f.highest then plainText d else scientificText f d

/-- The bit of the sign is set; so it is for the negative zero. -/
def isNegative (x : Float) : Bool := signBit ≤ x.toBits.toNat

/-- The text of a finite double. -/
def finiteText (f : Format) (x : Float) : String :=
  String.ofList ((if isNegative x then ['-'] else []) ++ magnitudeText f x.toBits)

/-- A double inside an expression and in messages is set plainly from a ten-thousandth up to sixteen digits
before the point, and a tie goes up. -/
def expressionFormat : Format := ⟨-4, 15, false, .up⟩

/-- A double inside an expression, with names for the values that are no numbers. -/
def expressionText (x : Float) : String :=
  if x.isNaN then "NaN"
  else if x.isInf then (if isNegative x then "-inf" else "inf")
  else finiteText expressionFormat x

end SolverClient.Decimal
