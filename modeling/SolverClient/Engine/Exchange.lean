import SolverClient.ModelError
import SolverClient.Reply

/-!
# Exchanges with the solver

One command to the solver, as a value: the request and how its reply is read (`Exchange`). Nothing is sent here.
Whoever holds a line to the solver sends the request and hands the reply, or the failure of the line, to
`Exchange.answer`.
-/

namespace SolverClient

/-- Why a request brought no reply. -/
inductive TransportError where
  /-- The reply reports a failure of the line. -/
  | status (code : Nat) (body : String)
  | request (reason : String)
  | decode (reason : String)
  deriving DecidableEq

/-- The message for a request without reply. -/
def TransportError.message : TransportError → String
  | status code body => "HTTP error occurred: " ++ toString code ++ " - " ++ body
  | request reason => "Request error occurred: " ++ reason
  | decode reason => "Invalid reply: " ++ reason

/-- Why a command failed. -/
inductive EngineError where
  | model (error : ModelError)
  | solution (error : SolutionError)
  | transport (error : TransportError)
  /-- The solver reports a failure. -/
  | solver (status message : String) (content : Json)

/-- The message for a command that failed. -/
def EngineError.message : EngineError → String
  | model e => e.message
  | solution e => e.message
  | transport e => e.message
  | solver status message _ => s!"Solver error ({status}): {message}"

/-- A command to the solver, with a body if it hands one over. -/
structure Request where
  command : String
  body : Option Json

namespace Request

/-- A question without body. -/
def get (command : String) : Request := ⟨command, none⟩

/-- A command with a body. -/
def post (command : String) (body : Json) : Request := ⟨command, some body⟩

/-- The method of the request. -/
def method (r : Request) : String := if r.body.isSome then "POST" else "GET"

end Request

/-- What a line to the solver gives for a request. -/
abbrev Answer := Except TransportError Json

/-- A command that is yet to be sent, or one that failed before. -/
inductive Exchange (α : Type) where
  | failed (error : EngineError)
  | send (request : Request) (read : Reply → Except EngineError α)

namespace Exchange

variable {α β : Type}

/-- The request that is to be sent, if there is one. -/
def request? : Exchange α → Option Request
  | failed _ => none
  | send r _ => some r

/-- The outcome for what the line gives. -/
def answer : Exchange α → Answer → Except EngineError α
  | failed e, _ => .error e
  | send .., .error e => .error (.transport e)
  | send _ read, .ok payload => read ⟨payload⟩

/-- Goes on with the outcome, if there is one. -/
def andThen (x : Exchange α) (f : α → Except EngineError β) : Exchange β :=
  match x with
  | failed e => failed e
  | send r read => send r fun reply => (read reply).bind f

end Exchange

end SolverClient
