import SolverClient.ModelError
import SolverClient.Text.Numeral
import SolverClient.Word

/-!
# Names of matrices

The solver knows arrays only. A matrix therefore travels as an array whose name carries its shape: the mark
`MATRIX$`, the number of rows, the number of columns and the base name, with a dollar sign after each count. The
base may hold any characters.
-/

namespace SolverClient

/-- A name that carries the shape of a matrix. -/
structure MatrixName where
  rows : Nat
  cols : Nat
  base : String
  deriving DecidableEq

namespace MatrixName

/-- The mark that such names start with. -/
def mark : List Char := ['M', 'A', 'T', 'R', 'I', 'X', '$']

/-- The characters of a name. -/
def chars (m : MatrixName) : List Char :=
  mark ++ (toString m.rows).toList ++ '$' :: (toString m.cols).toList ++ '$' :: m.base.toList

/-- The name as text. -/
def text (m : MatrixName) : String := String.ofList m.chars

/-- The name starts with the mark, whatever follows. -/
def hasMark (s : String) : Bool := mark.isPrefixOf s.toList

/-- A count up to the next dollar sign, and what follows the sign. -/
def takeCount (cs : List Char) : Option (Nat × List Char) :=
  match cs.dropWhile (· != '$') with
  | [] => none
  | _ :: rest => (Text.readNat Word.bound64 (cs.takeWhile (· != '$'))).map fun n => (n, rest)

/-- The shape and base of a list of characters. -/
def ofChars? (cs : List Char) : Option MatrixName :=
  if mark.isPrefixOf cs then do
    let (rows, rest) ← takeCount (cs.drop mark.length)
    let (cols, base) ← takeCount rest
    some ⟨rows, cols, String.ofList base⟩
  else none

/-- The shape and base that a name carries, if it is such a name. -/
def ofText? (s : String) : Option MatrixName := ofChars? s.toList

/-- The name under which a matrix of the given shape travels. A name with the mark is kept if it carries that
very shape, and refused if not; any other name is the base. -/
def identifier (name : String) (rows cols : Nat) : Except ModelError String :=
  if hasMark name then
    match ofText? name with
    | some m =>
      if m.rows = rows ∧ m.cols = cols then .ok name
      else .error (.request (.shapeMismatch name m.rows m.cols rows cols))
    | none => .error (.request (.brokenMatrixName name))
  else .ok (text ⟨rows, cols, name⟩)

end MatrixName

end SolverClient
