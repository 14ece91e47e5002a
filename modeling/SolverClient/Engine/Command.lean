import SolverClient.Engine.Exchange
import SolverClient.Model.Document

/-!
# Commands of the solver

The commands that the solver knows, each as an exchange. A command that hands over a model fails before anything
is sent if the model has no final document. Documents have no bounds here; a client that counts in words hands over a
model by `Engine.handOverInWords`.
-/

namespace SolverClient.Engine

/-- A question whose reply is taken as it is. -/
def ask (command : String) : Exchange Reply := .send (.get command) .ok

/-- A command that hands over a model. -/
def handOver (command : String) (m : Model) : Exchange Reply :=
  match m.toFields true with
  | .error e => .failed (.model e)
  | .ok d => .send (.post command (.obj d)) .ok

/-- Sends a text that comes back as it is. -/
def echo : Exchange String := .send (.post "echo" (.str "ECHO")) fun reply => .ok reply.text

/-- Asks for the version. -/
def version : Exchange Reply := ask "version"

/-- Asks what the solver is doing. -/
def status : Exchange Reply := ask "status"

/-- Makes the solver forget its model. -/
def reset : Exchange Reply := ask "reset"

/-- Stops the search. -/
def stop : Exchange Reply := ask "stop"

/-- Hands over a model to be solved. -/
def submit (m : Model) : Exchange Reply := handOver "model" m

/-- Hands over a model to be explained. -/
def explain (m : Model) : Exchange Reply := handOver "explain" m

/-- Asks for an explanation of the model at hand. -/
def explainCurrent : Exchange Reply := ask "explain"

/-- Asks for the solutions found so far. -/
def currentSolutions : Exchange Reply := ask "result"

/-- Asks for the model at hand. -/
def currentModel : Exchange Model :=
  .send (.get "current") fun reply =>
    match Json.fieldsOf "content" reply.content with
    | .error e => .error (.model e)
    | .ok d =>
      match Model.ofFields d with
      | .error e => .error (.model e)
      | .ok m => .ok m

end SolverClient.Engine
