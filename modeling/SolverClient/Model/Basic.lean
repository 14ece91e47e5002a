import SolverClient.Cutoff
import SolverClient.NameSource
import SolverClient.Objective
import SolverClient.Searcher

/-!
# Models

What a caller asks of the solver (`Model`): variables, constraints and objectives, and how to search. A model
that is being made (`Draft`) also has a source of names for constraints that come without one. The name given to
a constraint is drawn until no constraint of the model has it; the source is asked once more than there are
constraints, which suffices for a source that never repeats itself.
-/

namespace SolverClient

/-- A problem for the solver. -/
structure Model where
  vars : List Variable := []
  constraints : List Constraint := []
  objectives : List Objective := []
  searcher : Option Searcher := none
  cutoff : Option Cutoff := none
  /-- Where the solver reports its progress. -/
  callback : Option String := none
  /-- The number of solutions asked for. -/
  limit : Nat := 1

namespace Model

/-- A model without anything in it. -/
def empty : Model := {}

/-- The first variable of a name. -/
def findVariable (m : Model) (name : String) : Option Variable := Variable.find? m.vars name

/-- Some constraint has the name. -/
def hasConstraintNamed (m : Model) (name : String) : Bool := m.constraints.any (·.name == some name)

/-- The model with one variable more. -/
def addVariable (m : Model) (v : Variable) : Model := { m with vars := m.vars ++ [v] }

/-- The model with one constraint more, as it is. -/
def addConstraint (m : Model) (c : Constraint) : Model := { m with constraints := m.constraints ++ [c] }

/-- The model with one objective more. -/
def addObjective (m : Model) (o : Objective) : Model := { m with objectives := m.objectives ++ [o] }

/-- Draws names until one is not taken, at most once more than there are `attempts`. -/
def freshName (m : Model) : (attempts : Nat) → NameSource → String × NameSource
  | 0, source => source.draw
  | attempts + 1, source =>
    let (name, rest) := source.draw
    if m.hasConstraintNamed name then m.freshName attempts rest else (name, rest)

end Model

/-- A model in the making and the names for its constraints. -/
structure Draft where
  model : Model := .empty
  names : NameSource := .standard

namespace Draft

/-- A draft of a finished model, with names from the start. -/
def ofModel (m : Model) : Draft := { model := m }

/-- Changes the model and leaves the names. -/
def modify (d : Draft) (f : Model → Model) : Draft := { d with model := f d.model }

/-- The draft with one variable more. -/
def addVariable (d : Draft) (v : Variable) : Draft := d.modify (·.addVariable v)

/-- The draft with one constraint more, which gets a name if it has none. -/
def addConstraint (d : Draft) (c : Constraint) : Draft :=
  match c.name with
  | some _ => d.modify (·.addConstraint c)
  | none =>
    let (name, names) := d.model.freshName d.model.constraints.length d.names
    ⟨d.model.addConstraint (c.withName name), names⟩

/-- The draft with one objective more. -/
def addObjective (d : Draft) (o : Objective) : Draft := d.modify (·.addObjective o)

end Draft

end SolverClient
