import SolverClient.Variable.Document

/-!
# Variables counted in words

A client that holds its counts in words can only tell the number of cells of a variable, write its document and name a
cell while the counts that these take are words. The functions here follow those of variables step by step and give
nothing as soon as a count is not a word.
-/

namespace SolverClient.Variable

/-- The number of cells. That of a matrix is a product. -/
def sizeInWords? (v : Variable) : Option Nat :=
  match v.layout with
  | .scalar => some 1
  | .array length _ => some length
  | .matrix rows cols _ => Word.mul? rows cols

/-- There are no cells. -/
def isEmptyInWords? (v : Variable) : Option Bool := v.sizeInWords?.map (· == 0)

/-- The cell in a row and a column. -/
def cellInWords? (v : Variable) (row col : Nat) : Option Expression := do
  let before ← Word.mul? row v.layout.grid.2
  let index ← Word.add? before col
  return v.cellAt index

/-- The fields of a variable, in the order of documents. Those of a scalar take no count. -/
def toFieldsInWords? (v : Variable) : Option Fields := do
  let cells : Fields ←
    match v.layout.strategy? with
    | some s => v.sizeInWords?.map fun n => [("length", .int n), ("brancher_variable", .str s.tag)]
    | none => some []
  return [("name", .str v.name), ("type", .str v.typeTag)] ++ cells ++
    [("brancher_value", .str v.valueStrategy.tag), ("branching_order", .int v.order)] ++
    v.domain.toFields ++
    (match v.layout with
      | .matrix rows cols _ => [("rows", .int rows), ("cols", .int cols), ("subtype", .str "matrix")]
      | _ => [])

end SolverClient.Variable
