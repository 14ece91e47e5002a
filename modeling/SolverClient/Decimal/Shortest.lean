import SolverClient.Decimal.Binary

/-!
# The shortest decimal that reads back

Among the decimals that round to a given double, `shortest` takes one with the fewest digits, and among those the
nearest to the double. On a grid of decimals only the two neighbours of the double need a test, so that the search
runs over the number of digits alone. Seventeen digits always suffice. When two decimals of the same length are
equally near, the caller's `Tie` decides.
-/

namespace SolverClient.Decimal

/-- What to take of two equally near decimals. -/
inductive Tie where
  | toEven
  | up
  deriving DecidableEq

/-- The digits of a positive decimal without trailing zeros, most significant first, and the power of ten of the
first one. -/
structure Digits where
  digits : List Char
  exponent : Int
  deriving DecidableEq

/-- Compares `a * 10 ^ p` with `b * 2 ^ q`. -/
def compareScaled (a : Nat) (p : Int) (b : Nat) (q : Int) : Ordering :=
  let (tn, td) := powFraction 10 p
  let (bn, bd) := powFraction 2 q
  compare (a * tn * bd) (b * bn * td)

/-- The decimal `d * 10 ^ p` rounds to `x`: it lies between the midpoints to the neighbours of `x`. The midpoints
themselves round to `x` when its significand is even. -/
def readsBack (x : Binary) (d : Nat) (p : Int) : Bool :=
  let even := x.significand % 2 == 0
  let low := 4 * x.significand - (if x.narrowBelow then 1 else 2)
  let above := compareScaled d p low (x.exponent - 2)
  let below := compareScaled d p (4 * x.significand + 2) (x.exponent - 2)
  (above == .gt || (even && above == .eq)) && (below == .lt || (even && below == .eq))

/-- The number of decimal digits of a natural number. -/
def digitCount (n : Nat) : Nat := (Nat.toDigits 10 n).length

/-- The exponent `k` with `10 ^ (k - 1) ≤ x < 10 ^ k`. -/
def magnitude (x : Binary) : Int :=
  let (p, q) := powFraction 2 x.exponent
  let num := x.significand * p
  if q ≤ num then digitCount (num / q)
  else
    let j := digitCount (q / num)
    if q ≤ num * Nat.pow 10 (j - 1) then 2 - (j : Int) else 1 - (j : Int)

/-- The greatest multiple of `10 ^ p` that is not above `x`, in units of `10 ^ p`. -/
def gridFloor (x : Binary) (p : Int) : Nat :=
  let (tn, td) := powFraction 10 p
  let (bn, bd) := powFraction 2 x.exponent
  (x.significand * bn * td) / (bd * tn)

/-- Of the two neighbours of `x` on the grid `10 ^ p`, the one that reads back; of two such the nearer one. -/
def gridChoice (tie : Tie) (x : Binary) (p : Int) : Option Nat :=
  let low := gridFloor x p
  match readsBack x low p, readsBack x (low + 1) p with
  | true, true =>
    match compareScaled (2 * low + 1) p (2 * x.significand) x.exponent, tie with
    | .gt, _ => some low
    | .lt, _ => some (low + 1)
    | .eq, .up => some (low + 1)
    | .eq, .toEven => some (if low % 2 = 0 then low else low + 1)
  | true, false => some low
  | false, true => some (low + 1)
  | false, false => none

/-- The first grid with a decimal that reads back, from `count` digits on; with no `fuel` left, the floor on the
grid reached. -/
def searchGrid (tie : Tie) (x : Binary) (k : Int) : (fuel count : Nat) → Nat × Int
  | 0, count => (gridFloor x (k - count), k - count)
  | fuel + 1, count =>
    match gridChoice tie x (k - count) with
    | some d => (d, k - count)
    | none => searchGrid tie x k fuel (count + 1)

/-- The shortest decimal that reads back to the positive double `x`. -/
def shortest (tie : Tie) (x : Binary) : Digits :=
  let (d, p) := searchGrid tie x (magnitude x) 17 1
  let all := Nat.toDigits 10 d
  let kept := (all.reverse.dropWhile (· == '0')).reverse
  ⟨kept, p + all.length - 1⟩

end SolverClient.Decimal
