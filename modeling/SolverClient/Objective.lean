import SolverClient.Constraint.Document

/-!
# Objectives

A variable to be made as small or as great as possible.
-/

namespace SolverClient

/-- What is wanted of a variable. -/
inductive Direction where
  | minimize
  | maximize
  deriving DecidableEq

/-- The word for a direction in documents. -/
def Direction.tag : Direction → String
  | minimize => "minimize"
  | maximize => "maximize"

/-- A variable, by its name, and what is wanted of it. -/
structure Objective where
  variableName : String
  direction : Direction
  deriving DecidableEq

namespace Objective

/-- The objective to make a variable small. -/
def minimize (v : Variable) : Objective := ⟨v.name, .minimize⟩

/-- The objective to make a variable great. -/
def maximize (v : Variable) : Objective := ⟨v.name, .maximize⟩

/-- The fields of an objective. -/
def toFields (o : Objective) : Fields := [("var", .str o.variableName), ("type", .str o.direction.tag)]

/-- The direction of a document. -/
def directionOf (d : Fields) : Except ModelError Direction := do
  let tag ← d.string "type"
  if tag = "minimize" then .ok .minimize
  else if tag = "maximize" then .ok .maximize
  else .error (.malformed "type" (.unknownDirection tag))

/-- The objective of a document over the variables of a model. -/
def ofFields (vars : List Variable) (d : Fields) : Except ModelError Objective := do
  let direction ← directionOf d
  return ⟨← Variable.reference vars d "var", direction⟩

end Objective

end SolverClient
