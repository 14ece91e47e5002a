/-!
# Blank characters

The characters with the Unicode property White_Space, and the removal of blanks at the ends of a text. Names of
searchers and engine addresses are compared after trimming.
-/

namespace SolverClient.Text

/-- The characters with the property White_Space: the ASCII controls 9 to 13, the space, the next-line control, and
the spaces and separators of the later blocks. -/
def isBlank (c : Char) : Bool :=
  let n := c.toNat
  (9 ≤ n && n ≤ 13) || n == 0x20 || n == 0x85 || n == 0xA0 || n == 0x1680 || (0x2000 ≤ n && n ≤ 0x200A) ||
    n == 0x2028 || n == 0x2029 || n == 0x202F || n == 0x205F || n == 0x3000

/-- Every character that the core library calls white space is blank here. -/
theorem isBlank_of_isWhitespace {c : Char} (h : c.isWhitespace = true) : isBlank c = true := by
  simp only [Char.isWhitespace, Bool.or_eq_true, decide_eq_true_eq] at h
  rcases h with ((rfl | rfl) | rfl) | rfl <;> decide

/-- The characters without the leading and the trailing ones that satisfy `p`. -/
def stripBy (p : Char → Bool) (cs : List Char) : List Char :=
  (((cs.dropWhile p).reverse).dropWhile p).reverse

/-- The text without its leading and trailing blanks. -/
def trim (s : String) : String := String.ofList (stripBy isBlank s.toList)

end SolverClient.Text
