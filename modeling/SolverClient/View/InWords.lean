import SolverClient.Variable.InWords
import SolverClient.View

/-!
# Views walked with counts in words

The size of a view is a product of two counts, and a walk counts the ends of its span, its rows and columns and the
index of each cell. The functions here are those of views for a client that holds these counts in words. They give
nothing as soon as a count is not a word, while the functions without bounds say what they give otherwise.
-/

namespace SolverClient

/-- The span of a region in a grid. An end that comes after the last row or column is a count of its own. -/
def Region.spanInWords? (grid : Nat × Nat) : Region → Option Span
  | row r => do return ⟨r, 0, ← Word.add? r 1, grid.2⟩
  | column c => do return ⟨0, c, grid.1, ← Word.add? c 1⟩
  | slice r0 c0 r1 c1 => do return ⟨r0, c0, ← Word.add? r1 1, ← Word.add? c1 1⟩

/-- The number of places in a span. -/
def Span.sizeInWords? (s : Span) : Option Nat := Word.mul? (s.endRow - s.startRow) (s.endCol - s.startCol)

namespace View

/-- The rows and columns of a view. -/
def spanInWords? (v : View) : Option Span := v.region.spanInWords? v.array.layout.grid

/-- The number of cells. -/
def sizeInWords? (v : View) : Option Nat := v.spanInWords?.bind Span.sizeInWords?

/-- The start of a walk. -/
def startInWords? (v : View) : Option Cursor := v.spanInWords?.map fun s => ⟨v, s.startRow, s.startCol⟩

namespace Cursor

/-- The walk before the place that comes next: past the last column that is in the next row. -/
def settleInWords? (w : Cursor) : Option Cursor :=
  if w.view.span.endCol ≤ w.col then (Word.add? w.row 1).map fun row => ⟨w.view, row, w.view.span.startCol⟩
  else some w

/-- The next cell, if there is one, and the walk after it. -/
def nextInWords? (w : Cursor) : Option (Option Expression × Cursor) :=
  if w.view.span.endCol ≤ w.view.span.startCol then some (none, w)
  else do
    let w ← w.settleInWords?
    if w.view.span.endRow ≤ w.row then return (none, w)
    let cell ← w.view.array.cellInWords? w.row w.col
    let col ← Word.add? w.col 1
    return (some cell, ⟨w.view, w.row, col⟩)

/-- The cells that a walk meets in at most `limit` steps, up to its end. -/
def collectInWords? : (limit : Nat) → Cursor → Option (List Expression)
  | 0, _ => some []
  | limit + 1, w =>
    match w.nextInWords? with
    | none => none
    | some (none, _) => some []
    | some (some cell, w) => (collectInWords? limit w).map (cell :: ·)

end Cursor

end View

end SolverClient
