import SolverClient.Branching
import SolverClient.Expression

/-!
# Variables

A decision variable of the solver: a single value, an array of values or a matrix of values, which is an array
laid out row by row. Its cells and aggregates are expressions.
-/

namespace SolverClient

/-- The values that a variable, or each cell of an array, may take. -/
inductive Domain where
  | unrestricted
  | bounds (low high : Numeric)
  | specific (values : List Numeric)
  /-- The value is that of an expression. -/
  | expression (text : String)
  deriving BEq

/-- How a variable is laid out. Arrays and matrices also say how the search picks the next cell. -/
inductive Layout where
  | scalar
  | array (length : Nat) (strategy : VariableStrategy)
  | matrix (rows cols : Nat) (strategy : VariableStrategy)
  deriving DecidableEq

namespace Layout

/-- A single value. -/
def isScalar : Layout → Bool
  | scalar => true
  | _ => false

/-- Rows and columns of cells. -/
def isMatrix : Layout → Bool
  | matrix .. => true
  | _ => false

/-- How the search picks the next cell; a scalar has none to pick. -/
def strategy? : Layout → Option VariableStrategy
  | scalar => none
  | array _ s => some s
  | matrix _ _ s => some s

/-- The layout with another way to pick the next cell. -/
def withStrategy (s : VariableStrategy) : Layout → Layout
  | scalar => scalar
  | array n _ => array n s
  | matrix r c _ => matrix r c s

/-- The rows and columns of cells; a scalar and an array are one row. -/
def grid : Layout → Nat × Nat
  | scalar => (1, 1)
  | array n _ => (1, n)
  | matrix r c _ => (r, c)

/-- The number of cells. -/
def size (l : Layout) : Nat := l.grid.1 * l.grid.2

end Layout

/-- A variable of a model. -/
structure Variable where
  name : String
  kind : ValueKind
  layout : Layout
  domain : Domain
  valueStrategy : ValueStrategy
  /-- The place in the order of branching; `-1` is none. -/
  order : Int
  deriving BEq

namespace Variable

/-- The place in the order of branching of a variable that has none. -/
def noOrder : Int := -1

/-- The word for the type in documents; a matrix is an array there. -/
def typeTag (v : Variable) : String :=
  if v.layout.isScalar then v.kind.tag else v.kind.tag ++ "_array"

/-- The number of cells. -/
def size (v : Variable) : Nat := v.layout.size

/-- There are no cells. -/
def isEmpty (v : Variable) : Bool := v.size == 0

/-- The variable as an operand. -/
def expression (v : Variable) : Expression := .leaf v.name

/-- The cell at an index of the cells in a row. -/
def cellAt (v : Variable) (index : Nat) : Expression := .leaf (v.name ++ "[" ++ toString index ++ "]")

/-- The index of a cell among the cells laid out row by row. -/
def cellIndex (v : Variable) (row col : Nat) : Nat := row * v.layout.grid.2 + col

/-- The cell in a row and a column. -/
def cell (v : Variable) (row col : Nat) : Expression := v.cellAt (v.cellIndex row col)

/-- The sum of all cells. -/
def sum (v : Variable) : Expression := .applied "sum" v.name

/-- The least of all cells. -/
def min (v : Variable) : Expression := .applied "min" v.name

/-- The greatest of all cells. -/
def max (v : Variable) : Expression := .applied "max" v.name

/-- The first variable of a name. -/
def find? (vars : List Variable) (name : String) : Option Variable := vars.find? (·.name == name)

end Variable

end SolverClient
