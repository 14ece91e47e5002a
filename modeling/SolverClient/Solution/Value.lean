import SolverClient.Json.Printer
import SolverClient.Numeric

/-!
# Values of variables in a solution

What a solution says of a variable, in the shape of the variable. A cell that the solver left open has no value.
A matrix comes from a row of cells by `unflatten`, which fills up what is missing and drops what is too much;
`flatten` lays it out again.
-/

namespace SolverClient

/-- A cell of a variable, with its value if the solver gave it one. -/
abbrev Cell := Option Json

/-- The value of a variable. -/
inductive SolvedValue where
  | scalar (cell : Cell)
  | sequence (cells : List Cell)
  | matrix (rows : List (List Cell))

section Grid

variable {α : Type}

/-- Cuts a row of cells into rows, the cell in row `r` and column `c` being the one at `r * cols + c`, or an
open one if there is none. -/
def unflatten (flat : List (Option α)) (rows cols : Nat) : List (List (Option α)) :=
  let cells := flat.toArray
  (List.range rows).map fun r => (List.range cols).map fun c => (cells[r * cols + c]?).join

theorem length_unflatten (flat : List (Option α)) (rows cols : Nat) : (unflatten flat rows cols).length = rows := by
  simp only [unflatten, List.length_map, List.length_range]

theorem length_of_mem_unflatten {flat : List (Option α)} {rows cols : Nat} {row : List (Option α)}
    (h : row ∈ unflatten flat rows cols) : row.length = cols := by
  obtain ⟨r, -, rfl⟩ := List.mem_map.1 h
  rw [List.length_map, List.length_range]

/-- Lays rows of cells out in one row. -/
def flatten (rows : List (List (Option α))) : List (Option α) := rows.flatMap fun row => row

end Grid

namespace SolvedValue

/-- The value of a scalar. -/
def asScalar? : SolvedValue → Option Json
  | scalar cell => cell
  | _ => none

/-- The cells of an array. -/
def asSequence? : SolvedValue → Option (List Cell)
  | sequence cells => some cells
  | _ => none

/-- The rows of a matrix. -/
def asMatrix? : SolvedValue → Option (List (List Cell))
  | matrix rows => some rows
  | _ => none

/-- A scalar as an integer. -/
def asInt? (v : SolvedValue) : Option Int := v.asScalar?.bind Json.asInt?

/-- A scalar as a double, which any number is. -/
def asFloat? (v : SolvedValue) : Option Float := v.asScalar?.bind Json.asFloat?

/-- A scalar as a truth value; of the integers only zero is false. -/
def asBool? (v : SolvedValue) : Option Bool :=
  match v.asScalar? with
  | some (.bool b) => some b
  | some value => value.asInt?.map (· != 0)
  | none => none

/-- A cell in a document. -/
def cellJson (cell : Cell) : Json := cell.getD .null

/-- The value in a document; open cells are null. -/
def toJson : SolvedValue → Json
  | scalar cell => cellJson cell
  | sequence cells => .arr (cells.map cellJson)
  | matrix rows => .arr (rows.map fun row => .arr (row.map cellJson))

end SolvedValue

end SolverClient
