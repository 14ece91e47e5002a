import SolverClient.Engine.Command
import SolverClient.Variable.Declaration

/-!
# Solving a draft

A draft is solved by fixing how to search and handing its model over. The search, the number of solutions and
the cutoff stay with the draft, whatever the solver replies, and replace those of earlier calls. Documents and solutions
have no bounds here; a client runs `Draft.solveInWords`, of which this is the specification.
-/

namespace SolverClient.Draft

/-- Declares a variable; gives it together with the draft that has it. -/
def declare (d : Draft) (declaration : Declaration) : Except ModelError (Variable × Draft) := do
  let v ← declaration.build
  return (v, d.addVariable v)

/-- Reads the solutions of a reply; one that reports a failure is a failure. -/
def solutionsOf (reply : Reply) : Except EngineError (List Solution) :=
  if reply.isOk then
    match reply.solutions with
    | .error e => .error (.solution e)
    | .ok solutions => .ok (solutions.getD [])
  else .error (.solver reply.status reply.message reply.content)

/-- The draft with another way to search. -/
def withSearch (d : Draft) (searcher : Searcher) (limit : Nat) (cutoff : Option Cutoff) : Draft :=
  d.modify fun m => { m with searcher := some searcher, limit, cutoff }

/-- Asks for solutions. A limit of zero is refused and changes nothing. -/
def solve (d : Draft) (searcher : Searcher) (limit : Nat) (cutoff : Option Cutoff) : Draft × Exchange (List Solution) :=
  if limit = 0 then (d, .failed (.model (.request .solveLimitZero)))
  else
    let d := d.withSearch searcher limit cutoff
    (d, (Engine.submit d.model).andThen solutionsOf)

/-- Asks for one solution. -/
def solveOne (d : Draft) (searcher : Searcher) (cutoff : Option Cutoff) : Draft × Exchange (Option Solution) :=
  let (d, exchange) := d.solve searcher 1 cutoff
  (d, exchange.andThen fun solutions => .ok solutions.head?)

end SolverClient.Draft
