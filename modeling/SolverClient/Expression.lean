import SolverClient.Decimal.Format

/-!
# Expressions

Expressions over variables and numbers, as trees, and the text in which the solver reads them. Parentheses are
set by the operator alone, whatever the operands are: a product and a conjunction set none, a sum, a difference
and a disjunction enclose the whole, and all others enclose the operands as well.
-/

namespace SolverClient

/-- Operators of one operand. -/
inductive UnaryOperator where
  | abs
  | not
  | neg
  deriving DecidableEq

/-- Operators of two operands. -/
inductive BinaryOperator where
  | add
  | sub
  | mul
  | div
  | rem
  | and
  | or
  | xor
  | eq
  | ne
  | lt
  | le
  | gt
  | ge
  deriving DecidableEq

/-- Where an operator sets parentheses. -/
inductive Enclosure where
  /-- Nowhere. -/
  | bare
  /-- Around the whole. -/
  | whole
  /-- Around the whole and each operand. -/
  | parts
  deriving DecidableEq

namespace BinaryOperator

/-- The sign of an operator. -/
def sign : BinaryOperator → String
  | add => "+"
  | sub => "-"
  | mul => "*"
  | div => "/"
  | rem => "%"
  | and => "&"
  | or => "|"
  | xor => "^"
  | eq => "=="
  | ne => "!="
  | lt => "<"
  | le => "<="
  | gt => ">"
  | ge => ">="

/-- The parentheses of an operator. -/
def enclosure : BinaryOperator → Enclosure
  | mul => .bare
  | and => .bare
  | add => .whole
  | sub => .whole
  | or => .whole
  | _ => .parts

/-- The text of two operands under an operator. -/
def join (op : BinaryOperator) (left right : String) : String :=
  match op.enclosure with
  | .bare => left ++ " " ++ op.sign ++ " " ++ right
  | .whole => "(" ++ left ++ " " ++ op.sign ++ " " ++ right ++ ")"
  | .parts => "((" ++ left ++ ") " ++ op.sign ++ " (" ++ right ++ "))"

end BinaryOperator

/-- The text of an operand under an operator. -/
def UnaryOperator.enclose : UnaryOperator → String → String
  | abs, s => "abs(" ++ s ++ ")"
  | not, s => "!(" ++ s ++ ")"
  | neg, s => "(-1) * (" ++ s ++ ")"

/-- An expression; a leaf is a text that the solver reads as it stands. -/
inductive Expression where
  | leaf (text : String)
  | unary (op : UnaryOperator) (operand : Expression)
  | binary (op : BinaryOperator) (left right : Expression)
  deriving DecidableEq

namespace Expression

/-- The text of an expression. -/
def text : Expression → String
  | leaf s => s
  | unary op e => op.enclose e.text
  | binary op l r => op.join l.text r.text

/-- A literal integer. -/
def ofInt (n : Int) : Expression := leaf (toString n)

/-- A literal double. -/
def ofFloat (x : Float) : Expression := leaf (Decimal.expressionText x)

/-- A literal truth value. -/
def ofBool (b : Bool) : Expression := leaf (if b then "True" else "False")

/-- A function of the solver applied to a text. -/
def applied (function argument : String) : Expression := leaf (function ++ "(" ++ argument ++ ")")

end Expression

end SolverClient
