/-!
# Decimal numerals

Unsigned decimal numerals as lists of characters, read with a bound on their value. `readNat` takes an optional plus
sign and any leading zeros; `Nat.repr` writes neither.
-/

namespace SolverClient.Text

/-- The ASCII digits. -/
def isDigit (c : Char) : Bool := '0' ≤ c && c ≤ '9'

/-- The value of a digit, counted from the character zero. -/
def digitValue (c : Char) : Nat := c.toNat - 48

/-- The value of a list of digits, most significant first, continuing from `acc`. -/
def digitsValue (cs : List Char) (acc : Nat) : Nat := cs.foldl (fun n c => 10 * n + digitValue c) acc

/-- A numeral with at least one digit and nothing else, below `bound`. -/
def readDigits (bound : Nat) (cs : List Char) : Option Nat :=
  if cs.isEmpty || !cs.all isDigit then none
  else
    let n := digitsValue cs 0
    if n < bound then some n else none

/-- A numeral below `bound` that may carry a plus sign. -/
def readNat (bound : Nat) : List Char → Option Nat
  | '+' :: cs => readDigits bound cs
  | cs => readDigits bound cs

/-- The value of a hexadecimal digit of either case. -/
def hexValue (c : Char) : Option Nat :=
  if isDigit c then some (digitValue c)
  else if 'a' ≤ c && c ≤ 'f' then some (c.toNat - 87)
  else if 'A' ≤ c && c ≤ 'F' then some (c.toNat - 55)
  else none

end SolverClient.Text
