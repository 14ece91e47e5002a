import SolverClient.Constraint.Basic
import SolverClient.ModelError

/-!
# Making constraints

Constraints made from the variables they relate. A demand on the cells of an array refuses a scalar, and a
demand on a part of a matrix refuses all else and any part that does not lie in the matrix.
-/

namespace SolverClient.Constraint

/-- The result is a function of the operand. -/
def elementary (f : ElementaryFunction) (operand result : Variable) : Constraint :=
  unnamed (.elementary f operand.name result.name)

/-- The result is an operation on two variables. -/
def arithmetic (op : ArithmeticOperation) (left right result : Variable) : Constraint :=
  unnamed (.arithmetic op left.name right.name result.name)

/-- The result is a power or a root of the base. -/
def power (op : PowerOperation) (base : Variable) (exponent : Numeric) (result : Variable) : Constraint :=
  unnamed (.power op base.name exponent result.name)

/-- Refuses a scalar in a role that needs cells. -/
def needArray (role : String) (v : Variable) : Except ModelError Unit :=
  if v.layout.isScalar then .error (.request (.needsArray role v.name)) else .ok ()

/-- The value is one of the cells. -/
def member (array value : Variable) : Except ModelError Constraint := do
  needArray "member" array
  return unnamed (.member array.name value.name)

/-- The value is the cell at the index. -/
def element (array index value : Variable) : Except ModelError Constraint := do
  needArray "element" array
  return unnamed (.element array.name index.name value.name)

/-- The cells are in order. -/
def sorted (order : SortOrder) (array : Variable) : Except ModelError Constraint := do
  needArray order.tag array
  return unnamed (.sorted order array.name)

/-- All cells differ from one another. -/
def distinct (array : Variable) : Except ModelError Constraint := do
  needArray "distinct" array
  return unnamed (.distinct array.name .whole)

/-- The rows and columns of a matrix; all else is refused. -/
def needMatrix (role : String) (v : Variable) : Except ModelError (Nat × Nat) :=
  match v.layout with
  | .matrix rows cols _ => .ok (rows, cols)
  | _ => .error (.request (.needsMatrix role v.name))

/-- The cells of a row differ from one another. -/
def distinctRow (matrix : Variable) (row : Nat) : Except ModelError Constraint := do
  let (rows, cols) ← needMatrix "row" matrix
  if rows ≤ row then .error (.request (.rowOutside row rows))
  else .ok (unnamed (.distinct matrix.name (.row cols row)))

/-- The cells of a column differ from one another. -/
def distinctColumn (matrix : Variable) (col : Nat) : Except ModelError Constraint := do
  let (rows, cols) ← needMatrix "col" matrix
  if cols ≤ col then .error (.request (.columnOutside col cols))
  else .ok (unnamed (.distinct matrix.name (.column rows col)))

/-- The cells of a rectangle with the given corners differ from one another. -/
def distinctSlice (matrix : Variable) (startRow startCol endRow endCol : Nat) : Except ModelError Constraint := do
  let (rows, cols) ← needMatrix "slice" matrix
  if endRow < startRow ∨ endCol < startCol ∨ rows ≤ endRow ∨ cols ≤ endCol then
    .error (.request (.sliceOutside startRow startCol endRow endCol rows cols))
  else .ok (unnamed (.distinct matrix.name (.slice cols startRow startCol endRow endCol)))

/-- The cells of a view differ from one another. -/
def distinctView (v : View) : Except ModelError Constraint :=
  match v.region with
  | .row r => distinctRow v.array r
  | .column c => distinctColumn v.array c
  | .slice r0 c0 r1 c1 => distinctSlice v.array r0 c0 r1 c1

/-- An expression holds, over the integers. -/
def relation (e : Expression) : Constraint := unnamed (.relation e.text .integer)

/-- If the condition holds then the branch holds. -/
def ifThen (condition thenBranch : Expression) : Constraint :=
  unnamed (.conditional condition.text thenBranch.text none .integer)

/-- If the condition holds then the first branch holds, and else the second one. -/
def ifThenElse (condition thenBranch elseBranch : Expression) : Constraint :=
  unnamed (.conditional condition.text thenBranch.text (some elseBranch.text) .integer)

end SolverClient.Constraint
