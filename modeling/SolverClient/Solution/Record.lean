import SolverClient.MatrixName
import SolverClient.Solution.Value

/-!
# Solutions from records

The solver reports a solution as a list of records, one for each scalar and one for each cell of an array, in
any order and with gaps. `Solution.ofRecords` gathers them by name. A later record of the same scalar or cell
replaces an earlier one. An array whose name carries the shape of a matrix becomes that matrix, under its base
name. Nothing bounds the shape here: this is the specification of the reader that counts in words.
-/

namespace SolverClient

/-- What is wrong with a record. -/
inductive RecordFault where
  | notObject
  | missingName
  | missingAssigned
  | badPosition
  | positionTooGreat (position : Nat)
  deriving DecidableEq

/-- The greatest position of a cell. -/
def maxPosition : Nat := 0xFFFFFF

/-- The reason that a fault gives. -/
def RecordFault.reason : RecordFault → String
  | notObject => "expected an object"
  | missingName => "missing string 'name'"
  | missingAssigned => "missing boolean 'assigned'"
  | badPosition => "'position' must be a non-negative integer"
  | positionTooGreat p => "'position' " ++ toString p ++ " exceeds " ++ toString maxPosition

/-- What is wrong with a reply as a whole. -/
inductive ReplyFault where
  | notSolutions
  | notRecords
  | notVersion
  | notExplanation
  deriving DecidableEq

/-- The part of a reply that a fault is in. -/
def ReplyFault.field : ReplyFault → String
  | notVersion => "version"
  | _ => "content"

/-- The reason that a fault gives. -/
def ReplyFault.reason : ReplyFault → String
  | notSolutions => "expected a list of solutions"
  | notRecords => "expected an array of records"
  | notVersion => "expected the fields of a version"
  | notExplanation => "expected a list of explanations"

/-- Why a solution cannot be read. -/
inductive SolutionError where
  | malformedRecord (index : Nat) (fault : RecordFault)
  /-- A name has both a scalar and cells, or two variables end up under one name. -/
  | shapeConflict (name : String)
  | malformedReply (fault : ReplyFault)
  deriving DecidableEq

/-- The message for a solution that cannot be read. -/
def SolutionError.message : SolutionError → String
  | malformedRecord index fault => "Malformed solution record #" ++ toString index ++ ": " ++ fault.reason
  | shapeConflict name => s!"Variable '{name}' mixes positional and scalar records"
  | malformedReply fault => "Malformed response field '" ++ fault.field ++ "': " ++ fault.reason

/-- One report of the solver. -/
structure Record where
  name : String
  cell : Cell
  /-- The place in an array; a scalar has none. -/
  position : Option Nat

namespace Record

/-- The place in an array, a count up to the greatest position. -/
def positionOf (d : Fields) : Except RecordFault (Option Nat) :=
  match d.get? "position" with
  | none => .ok none
  | some v =>
    match v.asCount? with
    | none => .error .badPosition
    | some p => if p ≤ maxPosition then .ok (some p) else .error (.positionTooGreat p)

/-- The value, if the record is assigned and has one that is not null. -/
def cellOf (assigned : Bool) (d : Fields) : Cell :=
  if assigned then (d.get? "value").filter fun v => !v.isNull else none

/-- The record that a value holds. -/
def ofJson (v : Json) : Except RecordFault Record := do
  let some d := v.asFields? | .error .notObject
  let some name := (d.get? "name").bind Json.asString? | .error .missingName
  let some assigned := (d.get? "assigned").bind Json.asBool? | .error .missingAssigned
  return ⟨name, cellOf assigned d, ← positionOf d⟩

end Record

/-- What a solution says of each variable, in the order in which the variables were first reported. -/
structure Solution where
  entries : OrderedMap SolvedValue

namespace Solution

/-- Sets the cell at a position; cells that are missing before it are open. -/
def setCell (cells : List Cell) (position : Nat) (cell : Cell) : List Cell :=
  if position < cells.length then cells.set position cell
  else cells ++ List.replicate (position - cells.length) none ++ [cell]

/-- The value of a name after a record of it; a scalar and cells do not go together. -/
def merge (earlier : Option SolvedValue) (r : Record) : Except SolutionError SolvedValue :=
  match r.position, earlier with
  | none, some (.sequence _) => .error (.shapeConflict r.name)
  | none, _ => .ok (.scalar r.cell)
  | some p, none => .ok (.sequence (setCell [] p r.cell))
  | some p, some (.sequence cells) => .ok (.sequence (setCell cells p r.cell))
  | some _, some _ => .error (.shapeConflict r.name)

/-- Adds records to the entries gathered so far; `index` is the place of the first one. -/
def gather (index : Nat) (entries : OrderedMap SolvedValue) :
    List Json → Except SolutionError (OrderedMap SolvedValue)
  | [] => .ok entries
  | v :: rest =>
    match Record.ofJson v with
    | .error fault => .error (.malformedRecord index fault)
    | .ok r => do
      let value ← merge (entries.get? r.name) r
      gather (index + 1) (entries.insert r.name value) rest

/-- Cells under the name of a matrix become that matrix, under its base name. -/
def reshape : String × SolvedValue → String × SolvedValue
  | (name, .sequence cells) =>
    match MatrixName.ofText? name with
    | some m => (m.base, .matrix (unflatten cells m.rows m.cols))
    | none => (name, .sequence cells)
  | entry => entry

/-- Puts entries in order; no name may come twice. -/
def collect :
    List (String × SolvedValue) → OrderedMap SolvedValue → Except SolutionError (OrderedMap SolvedValue)
  | [], done => .ok done
  | (name, value) :: rest, done =>
    if done.contains name then .error (.shapeConflict name) else collect rest (done ++ [(name, value)])

/-- The solution of a list of records. -/
def ofRecords (records : List Json) : Except SolutionError Solution := do
  let entries ← gather 0 [] records
  return ⟨← collect (entries.map reshape) []⟩

/-- The solution of a value that must be a list of records. -/
def ofJson : Json → Except SolutionError Solution
  | .arr records => ofRecords records
  | _ => .error (.malformedReply .notRecords)

/-- The value of a variable. -/
def get? (s : Solution) (name : String) : Option SolvedValue := s.entries.get? name

/-- The solution says something of a variable. -/
def contains (s : Solution) (name : String) : Bool := s.entries.contains name

/-- The number of variables. -/
def size (s : Solution) : Nat := s.entries.length

/-- The names of the variables. -/
def names (s : Solution) : List String := s.entries.keys

/-- A scalar as an integer. -/
def int? (s : Solution) (name : String) : Option Int := (s.get? name).bind SolvedValue.asInt?

/-- A scalar as a double. -/
def float? (s : Solution) (name : String) : Option Float := (s.get? name).bind SolvedValue.asFloat?

/-- A scalar as a truth value. -/
def bool? (s : Solution) (name : String) : Option Bool := (s.get? name).bind SolvedValue.asBool?

/-- The cells of an array. -/
def sequence? (s : Solution) (name : String) : Option (List Cell) := (s.get? name).bind SolvedValue.asSequence?

/-- The rows of a matrix. -/
def matrix? (s : Solution) (name : String) : Option (List (List Cell)) := (s.get? name).bind SolvedValue.asMatrix?

/-- The solution as an object. -/
def toJson (s : Solution) : Json := .obj (s.entries.map fun (name, value) => (name, value.toJson))

end Solution

end SolverClient
