import SolverClient.Variable.Basic

/-!
# Views of a matrix

A row, a column or a rectangle of the cells of a variable. A view has a text of its own, which the solver reads
as the list of its cells, and it can be walked cell by cell, row by row. `View.cells` lists the cells;
`View.Cursor` walks them without laying them out, and may be started again at any time.
-/

namespace SolverClient

/-- A part of a grid. The corners of a slice belong to it. -/
inductive Region where
  | row (index : Nat)
  | column (index : Nat)
  | slice (startRow startCol endRow endCol : Nat)
  deriving DecidableEq

/-- Rows and columns from a start on and before an end. -/
structure Span where
  startRow : Nat
  startCol : Nat
  endRow : Nat
  endCol : Nat
  deriving DecidableEq

/-- The span of a region in a grid. -/
def Region.span (grid : Nat × Nat) : Region → Span
  | row r => ⟨r, 0, r + 1, grid.2⟩
  | column c => ⟨0, c, grid.1, c + 1⟩
  | slice r0 c0 r1 c1 => ⟨r0, c0, r1 + 1, c1 + 1⟩

/-- The number of places in a span; one that ends before it starts has none. -/
def Span.size (s : Span) : Nat := (s.endRow - s.startRow) * (s.endCol - s.startCol)

/-- The numbers from a start on and before an end. -/
def between (start stop : Nat) : List Nat := (List.range (stop - start)).map (start + ·)

/-- The places of a span, row by row. -/
def Span.places (s : Span) : List (Nat × Nat) :=
  (between s.startRow s.endRow).flatMap fun r => (between s.startCol s.endCol).map fun c => (r, c)

/-- A span has as many places as its size says. -/
theorem Span.length_places (s : Span) : s.places.length = s.size := by
  simp only [Span.places, Span.size, between, List.length_flatMap, List.length_map, List.length_range, List.map_const',
    List.sum_replicate_nat]

/-- A region of the cells of a variable. -/
structure View where
  array : Variable
  region : Region

namespace View

/-- The rows and columns of a view. -/
def span (v : View) : Span := v.region.span v.array.layout.grid

/-- The number of cells. -/
def size (v : View) : Nat := v.span.size

/-- The cells, row by row. -/
def cells (v : View) : List Expression := v.span.places.map fun (r, c) => v.array.cell r c

/-- An index between brackets. -/
def index (n : Nat) : String := "[" ++ toString n ++ "]"

/-- The text of a view: the variable, its rows and columns, and the region, where a slice has its end after its last
row and column. -/
def text (v : View) : String :=
  let (rows, cols) := v.array.layout.grid
  v.array.name ++ index rows ++ index cols ++
  match v.region with
  | .row r => "[r]" ++ index r
  | .column c => "[c]" ++ index c
  | .slice .. =>
    let s := v.span
    "[s]" ++ index s.startRow ++ index s.startCol ++ index s.endRow ++ index s.endCol

/-- The view as an operand. -/
def expression (v : View) : Expression := .leaf v.text

/-- The sum of the cells. -/
def sum (v : View) : Expression := .applied "sum" v.text

/-- The least of the cells. -/
def min (v : View) : Expression := .applied "min" v.text

/-- The greatest of the cells. -/
def max (v : View) : Expression := .applied "max" v.text

/-- A walk over the cells of a view that stands before a place. -/
structure Cursor where
  view : View
  row : Nat
  col : Nat

/-- The start of a walk. -/
def start (v : View) : Cursor := ⟨v, v.span.startRow, v.span.startCol⟩

/-- The next cell, if there is one, and the walk after it. Past the last column the walk goes on in the next row. -/
def Cursor.next (w : Cursor) : Option Expression × Cursor :=
  let s := w.view.span
  if s.endCol ≤ s.startCol then (none, w)
  else
    let w : Cursor := if s.endCol ≤ w.col then ⟨w.view, w.row + 1, s.startCol⟩ else w
    if s.endRow ≤ w.row then (none, w) else (some (w.view.array.cell w.row w.col), ⟨w.view, w.row, w.col + 1⟩)

/-- The cells that a walk meets in at most `limit` steps, up to its end. -/
def Cursor.collect : (limit : Nat) → Cursor → List Expression
  | 0, _ => []
  | limit + 1, w =>
    match w.next with
    | (some cell, w) => cell :: collect limit w
    | (none, _) => []

end View

end SolverClient
