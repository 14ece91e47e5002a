/-!
# Machine words

The bounds of the words in which the solver holds counts, limits and integers. Sizes and indices inside this library
are natural numbers; a bound applies where a number enters through a text or a document. Where sizes from a text are
multiplied, their product need not be a word, and the checked operations say so.
-/

namespace SolverClient.Word

/-- One more than the greatest word of 32 bits. -/
def bound32 : Nat := 0x100000000

/-- One more than the greatest word of 64 bits. -/
def bound64 : Nat := 0x10000000000000000

/-- One more than the greatest word of 64 bits with sign. -/
def signedBound : Nat := 0x8000000000000000

/-- The integer is a word of 64 bits with sign. -/
def isSigned (n : Int) : Bool := -(signedBound : Int) ≤ n && n < signedBound

/-- The number, if it is a word of 64 bits. -/
def checked? (n : Nat) : Option Nat := if n < bound64 then some n else none

/-- The sum of two words, if it is one. -/
def add? (m n : Nat) : Option Nat := checked? (m + n)

/-- The product of two words, if it is one. -/
def mul? (m n : Nat) : Option Nat := checked? (m * n)

end SolverClient.Word
