import SolverClient.View

/-!
# Constraints

A constraint relates variables, which it knows by name, or demands that an expression holds. Each family of
constraints keeps just what it needs, and each constraint has the tag of its family's operation in documents. A
conditional keeps its three parts; the expression that stands for it is composed from them.
-/

namespace SolverClient

/-- Functions of one variable. -/
inductive ElementaryFunction where
  | abs
  | sin
  | cos
  | tan
  | asin
  | acos
  | atan
  | exp
  | log
  deriving DecidableEq

namespace ElementaryFunction

/-- The tag in documents. -/
def tag : ElementaryFunction → String
  | abs => "abs"
  | sin => "sin"
  | cos => "cos"
  | tan => "tan"
  | asin => "asin"
  | acos => "acos"
  | atan => "atan"
  | exp => "exp"
  | log => "log"

/-- All functions. -/
def all : List ElementaryFunction := [abs, sin, cos, tan, asin, acos, atan, exp, log]

/-- The function of a tag. -/
def ofTag? (s : String) : Option ElementaryFunction := all.find? (·.tag == s)

end ElementaryFunction

/-- Operations on two variables. -/
inductive ArithmeticOperation where
  | div
  | mul
  | mod
  | min
  | max
  deriving DecidableEq

namespace ArithmeticOperation

/-- The tag in documents. -/
def tag : ArithmeticOperation → String
  | div => "div"
  | mul => "mul"
  | mod => "mod"
  | min => "min"
  | max => "max"

/-- All operations. -/
def all : List ArithmeticOperation := [div, mul, mod, min, max]

/-- The operation of a tag. -/
def ofTag? (s : String) : Option ArithmeticOperation := all.find? (·.tag == s)

end ArithmeticOperation

/-- Operations on a variable and a literal exponent. -/
inductive PowerOperation where
  | power
  | root
  deriving DecidableEq

namespace PowerOperation

/-- The tag in documents. -/
def tag : PowerOperation → String
  | power => "pow"
  | root => "nroot"

/-- All operations. -/
def all : List PowerOperation := [power, root]

/-- The operation of a tag. -/
def ofTag? (s : String) : Option PowerOperation := all.find? (·.tag == s)

end PowerOperation

/-- Directions of sorting. -/
inductive SortOrder where
  | ascending
  | descending
  deriving DecidableEq

namespace SortOrder

/-- The tag in documents. -/
def tag : SortOrder → String
  | ascending => "sorted"
  | descending => "rsorted"

/-- All directions. -/
def all : List SortOrder := [ascending, descending]

/-- The direction of a tag. -/
def ofTag? (s : String) : Option SortOrder := all.find? (·.tag == s)

end SortOrder

/-- The cells of an array that have to differ. With a row or a slice goes the number of columns of the matrix,
with a column the number of rows. The corners of a slice belong to it. -/
inductive Selection where
  | whole
  | row (size index : Nat)
  | column (size index : Nat)
  | slice (size startRow startCol endRow endCol : Nat)
  deriving DecidableEq

/-- The word for a selection in documents. -/
def Selection.tag : Selection → String
  | whole => "standard"
  | row .. => "row"
  | column .. => "col"
  | slice .. => "slice"

/-- What a constraint demands. -/
inductive Demand where
  | elementary (function : ElementaryFunction) (operand result : String)
  | arithmetic (operation : ArithmeticOperation) (left right result : String)
  | power (operation : PowerOperation) (base : String) (exponent : Numeric) (result : String)
  /-- The value is one of the cells. -/
  | member (array value : String)
  /-- The value is the cell at the index. -/
  | element (array index value : String)
  | sorted (order : SortOrder) (array : String)
  /-- The selected cells differ from one another. -/
  | distinct (array : String) (selection : Selection)
  | relation (expr : String) (kind : ValueKind)
  /-- If the condition holds then the first branch holds, else the second one, if there is one. -/
  | conditional (condition thenBranch : String) (elseBranch : Option String) (kind : ValueKind)
  deriving BEq

namespace Demand

/-- The tag in documents. -/
def tag : Demand → String
  | elementary f .. => f.tag
  | arithmetic op .. => op.tag
  | power op .. => op.tag
  | member .. => "member"
  | element .. => "element"
  | sorted order _ => order.tag
  | distinct .. => "distinct"
  | relation .. => "rel"
  | conditional .. => "rel"

/-- The text that stands for a conditional. -/
def compose (condition thenBranch : String) : Option String → String
  | some elseBranch => "(" ++ condition ++ " & " ++ thenBranch ++ ") | (!(" ++ condition ++ ") & " ++ elseBranch ++ ")"
  | none => condition ++ " & " ++ thenBranch

/-- The text of what has to hold, for a relation or a conditional. -/
def expressionText? : Demand → Option String
  | relation expr _ => some expr
  | conditional c t e _ => some (compose c t e)
  | _ => none

/-- The kind of values that a relation or a conditional ranges over is replaced; all others stay as they are. -/
def withKind (kind : ValueKind) : Demand → Demand
  | relation expr _ => relation expr kind
  | conditional c t e _ => conditional c t e kind
  | d => d

end Demand

/-- A demand with a name, if it has one. -/
structure Constraint where
  name : Option String
  demand : Demand
  deriving BEq

namespace Constraint

/-- A constraint without a name. -/
def unnamed (demand : Demand) : Constraint := ⟨none, demand⟩

/-- The constraint under a name. -/
def withName (c : Constraint) (name : String) : Constraint := { c with name := some name }

/-- The constraint over another kind of values. -/
def withKind (c : Constraint) (kind : ValueKind) : Constraint := { c with demand := c.demand.withKind kind }

/-- The expression of a relation or a conditional. -/
def expression? (c : Constraint) : Option Expression := c.demand.expressionText?.map .leaf

end Constraint

end SolverClient
