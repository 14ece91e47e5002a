import SolverClient.MatrixName
import SolverClient.Variable.Basic

/-!
# Declaring variables

A declaration gathers what the maker of a variable asks for; `build` checks it and makes the variable. A domain
may be asked for once only. Of every other setting the last request counts. Strategies must be available for the
kind of values, arrays and matrices must have cells, and only a scalar can be defined by an expression.
-/

namespace SolverClient

/-- What is asked for so far. -/
structure Declaration where
  name : String
  kind : ValueKind
  layout : Layout
  domain : Domain := .unrestricted
  /-- A domain was asked for more than once. -/
  conflicting : Bool := false
  valueStrategy : ValueStrategy := .standard
  order : Int := Variable.noOrder

namespace Declaration

/-- A variable of one value. -/
def scalar (kind : ValueKind) (name : String) : Declaration := { name, kind, layout := .scalar }

/-- An array of a length. -/
def array (kind : ValueKind) (name : String) (length : Nat) : Declaration :=
  { name, kind, layout := .array length .standard }

/-- A matrix of a shape. -/
def matrix (kind : ValueKind) (name : String) (rows cols : Nat) : Declaration :=
  { name, kind, layout := .matrix rows cols .standard }

/-- Asks for a domain; a second request is a conflict. -/
def withDomain (d : Declaration) (domain : Domain) : Declaration :=
  match d.domain with
  | .unrestricted => { d with domain }
  | _ => { d with domain, conflicting := true }

/-- Asks for values between two bounds. -/
def withBounds (d : Declaration) (low high : Numeric) : Declaration := d.withDomain (.bounds low high)

/-- Asks for values of a list. -/
def withValues (d : Declaration) (values : List Numeric) : Declaration := d.withDomain (.specific values)

/-- Asks for the value of an expression. -/
def withExpression (d : Declaration) (e : Expression) : Declaration := d.withDomain (.expression e.text)

/-- Asks for a way to pick values. -/
def withValueStrategy (d : Declaration) (s : ValueStrategy) : Declaration := { d with valueStrategy := s }

/-- Asks for a way to pick the next cell; a scalar ignores it. -/
def withVariableStrategy (d : Declaration) (s : VariableStrategy) : Declaration :=
  { d with layout := d.layout.withStrategy s }

/-- Asks for a place in the order of branching. -/
def withOrder (d : Declaration) (order : Int) : Declaration := { d with order }

/-- The name of the variable, which for a matrix carries the shape. Arrays and matrices must have cells. -/
def identifier (d : Declaration) : Except ModelError String :=
  match d.layout with
  | .scalar => .ok d.name
  | .array length _ => if length = 0 then .error (.request (.emptyArray d.name)) else .ok d.name
  | .matrix rows cols _ =>
    if rows = 0 ∨ cols = 0 then .error (.request (.emptyMatrix d.name rows cols))
    else MatrixName.identifier d.name rows cols

/-- The variable that was declared. -/
def build (d : Declaration) : Except ModelError Variable := do
  if d.name = "" then .error (.request .emptyName)
  if d.conflicting then .error (.request (.severalDomains d.name))
  if !d.valueStrategy.availableFor d.kind then
    .error (.request (.valueStrategyUnavailable d.valueStrategy d.kind))
  let name ← d.identifier
  match d.layout.strategy?, d.domain with
  | some _, .expression _ => .error (.request (.arrayWithExpression name))
  | some s, _ =>
    if !s.availableFor d.kind then .error (.request (.variableStrategyUnavailable s d.kind))
  | none, _ => .ok ()
  .ok ⟨name, d.kind, d.layout, d.domain, d.valueStrategy, d.order⟩

end Declaration

end SolverClient
