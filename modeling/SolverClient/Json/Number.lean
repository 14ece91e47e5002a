import SolverClient.Decimal.Reading
import SolverClient.Json.Basic

/-!
# Numbers in JSON text

A literal is split by the grammar (`NumberLiteral.read?`) and then valued. An integer that fits the machine
stays one. Any other literal becomes a double in two steps: its leading digits are gathered as long as they fit
a machine word, the later ones counting as places only, and the result is scaled by a power of ten in the
arithmetic of doubles.
-/

namespace SolverClient.Json

open SolverClient.Text SolverClient.Decimal

/-- The parts of a number literal. -/
structure NumberLiteral where
  negative : Bool
  /-- The digits before the point. -/
  whole : List Char
  /-- The digits after the point, if there is one. -/
  fraction : Option (List Char)
  exponent : Option Int

/-- Takes a nonempty run of digits off the front. -/
def takeDigits (cs : List Char) : Option (List Char × List Char) :=
  let ds := cs.takeWhile isDigit
  if ds.isEmpty then none else some (ds, cs.dropWhile isDigit)

/-- Takes an exponent, if the next character starts one; such a character without digits is no exponent. -/
def takeExponent : List Char → Option (Option Int × List Char)
  | [] => some (none, [])
  | c :: cs =>
    if c = 'e' || c = 'E' then
      let (negative, ds) : Bool × List Char :=
        match cs with
        | '+' :: r => (false, r)
        | '-' :: r => (true, r)
        | r => (false, r)
      (takeDigits ds).map fun (digits, rest) =>
        let n : Int := digitsValue digits 0
        (some (if negative then -n else n), rest)
    else some (none, c :: cs)

/-- Takes a literal off the front of a text. A leading zero stands alone before the point, and a point is
followed by a digit. -/
def NumberLiteral.read? (cs : List Char) : Option (NumberLiteral × List Char) := do
  let (negative, cs) : Bool × List Char :=
    match cs with
    | '-' :: r => (true, r)
    | r => (false, r)
  let (whole, rest) ← takeDigits cs
  if 1 < whole.length && whole.head? == some '0' then none
  else
    let (fraction, rest) : Option (List Char) × List Char ←
      match rest with
      | '.' :: r => (takeDigits r).map fun (ds, rest) => (some ds, rest)
      | r => some (none, r)
    let (exponent, rest) ← takeExponent rest
    some (⟨negative, whole, fraction, exponent⟩, rest)

/-- Appends digits to a word as long as the result is one; gives the word and the number of digits left over. -/
def gatherDigits : Nat → List Char → Nat × Nat
  | word, [] => (word, 0)
  | word, c :: cs =>
    let next := 10 * word + digitValue c
    if next < Word.bound64 then gatherDigits next cs else (word, cs.length + 1)

/-- A word times a power of ten, by one multiplication or by at most two divisions of doubles. A result that is not
finite is none. -/
def scaleWord (word : Nat) (exponent : Int) : Option Float :=
  let x := ofInt word
  let e := exponent.natAbs
  if 0 ≤ exponent then
    if 308 < e then (if word = 0 then some x else none)
    else
      let y := x * powTen e
      if y.isInf then none else some y
  else if e ≤ 308 then some (x / powTen e)
  else if e ≤ 616 then some (x / powTen 308 / powTen (e - 308))
  else some 0.0

/-- The double of a literal. -/
def NumberLiteral.toFloat? (l : NumberLiteral) : Option Float :=
  let fraction := l.fraction.getD []
  let (word, skipped) := gatherDigits 0 l.whole
  let (word, left) := gatherDigits word fraction
  let places : Int := skipped - (fraction.length - left : Nat)
  (scaleWord word (places + l.exponent.getD 0)).map fun x => if l.negative then -x else x

/-- The value of a literal. Without point and exponent it is an integer, if it is one of 64 bits with or without
sign; the negative zero is a double. -/
def NumberLiteral.value? (l : NumberLiteral) : Option Json :=
  let n := digitsValue l.whole 0
  let plain := l.fraction.isNone && l.exponent.isNone
  if plain && !l.negative && n < Word.bound64 then some (.int n)
  else if plain && l.negative && 0 < n && n ≤ Word.signedBound then some (.int (-n))
  else l.toFloat?.map .float

end SolverClient.Json
