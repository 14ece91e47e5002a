import SolverClient.Engine.Solve
import SolverClient.Model.InWords
import SolverClient.Solution.InWords

/-!
# Commands with counts in words

The commands as a client gives them that holds its counts in words. Such a client has to give up where a count is not a
word: before anything is sent if the document of a model cannot be written, and after the reply if its solutions cannot
be read. The commands without bounds say what comes of them otherwise.
-/

namespace SolverClient

/-- A command of a client that may have to give up. -/
inductive CountedExchange (α : Type) where
  /-- It has given up before anything was sent. -/
  | overflow
  | failed (error : EngineError)
  /-- What the reply comes to; nothing if the client has to give up as it reads it. -/
  | send (request : Request) (read : Reply → Option (Except EngineError α))

namespace CountedExchange

variable {α β : Type}

/-- A command for which nothing is counted but what a reader without bounds counts. -/
def ofExchange : Exchange α → CountedExchange α
  | .failed e => failed e
  | .send r read => send r fun reply => some (read reply)

/-- The request that is to be sent, if there is one. -/
def request? : CountedExchange α → Option Request
  | send r _ => some r
  | _ => none

/-- The outcome for what the line gives, unless the client has to give up. -/
def answer : CountedExchange α → Answer → Option (Except EngineError α)
  | overflow, _ => none
  | failed e, _ => some (.error e)
  | send .., .error e => some (.error (.transport e))
  | send _ read, .ok payload => read ⟨payload⟩

/-- Goes on with the outcome, if there is one. -/
def andThen (x : CountedExchange α) (f : α → Option (Except EngineError β)) : CountedExchange β :=
  match x with
  | overflow => overflow
  | failed e => failed e
  | send r read => send r fun reply =>
    match read reply with
    | none => none
    | some (.error e) => some (.error e)
    | some (.ok a) => f a

end CountedExchange

namespace Engine

/-- A command that hands over a model. -/
def handOverInWords (command : String) (m : Model) : CountedExchange Reply :=
  match m.toFieldsInWords? true with
  | none => .overflow
  | some (.error e) => .failed (.model e)
  | some (.ok d) => .send (.post command (.obj d)) fun reply => some (.ok reply)

/-- Hands over a model to be solved. -/
def submitInWords (m : Model) : CountedExchange Reply := handOverInWords "model" m

/-- Hands over a model to be explained. -/
def explainInWords (m : Model) : CountedExchange Reply := handOverInWords "explain" m

end Engine

namespace Draft

/-- Reads the solutions of a reply; one that reports a failure is a failure. -/
def solutionsInWords? (reply : Reply) : Option (Except EngineError (List Solution)) :=
  if reply.isOk then
    reply.solutionsInWords?.map fun
      | .error e => .error (.solution e)
      | .ok solutions => .ok (solutions.getD [])
  else some (.error (.solver reply.status reply.message reply.content))

/-- Asks for solutions. A limit of zero is refused and changes nothing. A draft whose model cannot be written keeps the
search all the same. -/
def solveInWords (d : Draft) (searcher : Searcher) (limit : Nat) (cutoff : Option Cutoff) :
    Draft × CountedExchange (List Solution) :=
  if limit = 0 then (d, .failed (.model (.request .solveLimitZero)))
  else
    let d := d.withSearch searcher limit cutoff
    (d, (Engine.submitInWords d.model).andThen solutionsInWords?)

/-- Asks for one solution. -/
def solveOneInWords (d : Draft) (searcher : Searcher) (cutoff : Option Cutoff) :
    Draft × CountedExchange (Option Solution) :=
  let (d, exchange) := d.solveInWords searcher 1 cutoff
  (d, exchange.andThen fun solutions => some (.ok solutions.head?))

end Draft

end SolverClient
