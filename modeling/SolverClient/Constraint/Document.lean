import SolverClient.Constraint.Basic
import SolverClient.Json.Field

/-!
# Constraints in documents

The fields of a constraint, written by `toFields` and read by `ofFields` against the variables of the model. A
reader knows the constraint by its tag; a tag that no family has is refused. Every variable that a constraint
names must be in the model, where the first one of the name counts. A conditional is read from its three parts,
never from the expression composed of them.
-/

namespace SolverClient

namespace Selection

/-- The fields of a selection. A slice ends after its last row and column. -/
def toFields (s : Selection) : Fields :=
  ("selection", .str s.tag) ::
  match s with
  | whole => []
  | row size index => [("size", .int size), ("index", .int index)]
  | column size index => [("size", .int size), ("index", .int index)]
  | slice size r0 c0 r1 c1 =>
    [("size", .int size), ("offset_start_x", .int r0), ("offset_start_y", .int c0),
      ("offset_end_x", .int ((r1 + 1 : Nat) : Int)), ("offset_end_y", .int ((c1 + 1 : Nat) : Int))]

/-- The last row or column, from the end after it. -/
def lastOf (d : Fields) (key : String) : Except ModelError Nat := do
  match ← d.count key with
  | 0 => .error (.malformed key .endOffsetZero)
  | n + 1 => .ok n

/-- The selection of a document. -/
def ofFields (d : Fields) : Except ModelError Selection := do
  let tag := (← d.string? "selection").getD "standard"
  if tag = "standard" then return whole
  else if tag = "row" then return row (← d.count "size") (← d.count "index")
  else if tag = "col" then return column (← d.count "size") (← d.count "index")
  else if tag = "slice" then
    return slice (← d.count "size") (← d.count "offset_start_x") (← d.count "offset_start_y")
      (← lastOf d "offset_end_x") (← lastOf d "offset_end_y")
  else .error (.malformed "selection" (.unknownSelection tag))

end Selection

namespace Variable

/-- The variable that a field names. -/
def referenced (vars : List Variable) (d : Fields) (key : String) : Except ModelError Variable := do
  let name ← d.string key
  match find? vars name with
  | some v => .ok v
  | none => .error (.variableNotFound name)

/-- The name of the variable that a field names. -/
def reference (vars : List Variable) (d : Fields) (key : String) : Except ModelError String := do
  return (← referenced vars d key).name

/-- The name of the array or matrix that a field names. -/
def arrayReference (vars : List Variable) (d : Fields) (key : String) : Except ModelError String := do
  let v ← referenced vars d key
  if v.layout.isScalar then .error (.malformed key (.scalarForArray v.name)) else .ok v.name

/-- The name of the matrix that a field names, for a selection that needs one. -/
def matrixReference (vars : List Variable) (d : Fields) (key : String) (selection : Selection) :
    Except ModelError String := do
  let v ← referenced vars d key
  if v.layout.isMatrix then .ok v.name else .error (.malformed key (.noMatrix v.name selection.tag))

end Variable

namespace Demand

/-- The word that stands for a branch that is not there. -/
def noBranch : String := "None"

/-- The fields of a demand, in the order of documents. -/
def toFields (demand : Demand) : Fields :=
  match demand with
  | elementary _ operand result => [("v1", .str operand), ("v2", .str result), ("type", .str demand.tag)]
  | arithmetic _ left right result =>
    [("v1", .str left), ("v2", .str right), ("v3", .str result), ("type", .str demand.tag)]
  | power _ base exponent result =>
    [("v1", .str base), ("v2", exponent.toJson), ("v3", .str result), ("type", .str demand.tag)]
  | member array value => [("v1", .str array), ("v2", .str value), ("type", .str demand.tag)]
  | element array index value =>
    [("map", .str array), ("v1", .str index), ("v2", .str value), ("type", .str demand.tag)]
  | sorted _ array => [("v1", .str array), ("type", .str demand.tag)]
  | distinct array selection => [("type", .str demand.tag), ("v1", .str array)] ++ selection.toFields
  | relation expr kind =>
    [("expr", .str expr), ("type", .str demand.tag)] ++
      if kind = .integer then [] else [("varset", .str kind.tag)]
  | conditional condition thenBranch elseBranch kind =>
    [("expr", .str (compose condition thenBranch elseBranch)), ("type", .str demand.tag), ("subtype", .str "ite"),
      ("ite_condition", .str condition), ("ite_then", .str thenBranch), ("ite_else", .str (elseBranch.getD noBranch)),
      ("varset", .str kind.tag)]

/-- The literal exponent of a document. -/
def exponentOf (d : Fields) : Except ModelError Numeric :=
  match (d.get? "v2").bind Numeric.ofJson? with
  | some n => .ok n
  | none => .error (.malformed "v2" (.expected .exponent))

/-- A relation or, where the document says so, a conditional. The second branch is not there if it is empty or
the word for that. -/
def relationOf (d : Fields) : Except ModelError Demand := do
  let kind := ((← d.string? "varset").map ValueKind.ofSetName).getD .integer
  if (← d.string? "subtype") = some "ite" then
    let elseBranch := (← d.string? "ite_else").filter fun s => s != "" && s != noBranch
    return conditional (← d.string "ite_condition") (← d.string "ite_then") elseBranch kind
  else return relation (← d.string "expr") kind

/-- A demand that cells differ. -/
def distinctOf (vars : List Variable) (d : Fields) : Except ModelError Demand := do
  let selection ← Selection.ofFields d
  let array ←
    match selection with
    | .whole => Variable.arrayReference vars d "v1"
    | _ => Variable.matrixReference vars d "v1" selection
  return distinct array selection

/-- The demand of a document with the given tag. -/
def ofFields (tag : String) (vars : List Variable) (d : Fields) : Except ModelError Demand := do
  let named := Variable.reference vars d
  let cells := Variable.arrayReference vars d
  if let some f := ElementaryFunction.ofTag? tag then return elementary f (← named "v1") (← named "v2")
  else if let some op := ArithmeticOperation.ofTag? tag then
    return arithmetic op (← named "v1") (← named "v2") (← named "v3")
  else if let some op := PowerOperation.ofTag? tag then
    let exponent ← exponentOf d
    return power op (← named "v1") exponent (← named "v3")
  else if tag = "member" then return member (← cells "v1") (← named "v2")
  else if tag = "element" then return element (← cells "map") (← named "v1") (← named "v2")
  else if let some order := SortOrder.ofTag? tag then return sorted order (← cells "v1")
  else if tag = "distinct" then distinctOf vars d
  else if tag = "rel" then relationOf d
  else .error (.unknownConstraint tag)

end Demand

namespace Constraint

/-- The fields of a constraint; the name comes first and is null if there is none. -/
def toFields (c : Constraint) : Fields := ("name", .ofString? c.name) :: c.demand.toFields

/-- The constraint of a document over the variables of a model. -/
def ofFields (vars : List Variable) (d : Fields) : Except ModelError Constraint := do
  let demand ← Demand.ofFields (← d.string "type") vars d
  return ⟨← d.string? "name", demand⟩

end Constraint

end SolverClient
