import SolverClient.Reply
import SolverClient.Word

/-!
# Solutions counted in words

A reader of solutions that holds its counts in words can only cut a row of cells into a matrix while the number of cells
of the matrix and the index of each cell are words. The readers here are those that a client runs. They go through
records and replies step by step as their specification does (`Solution.ofRecords`, `Reply.solutions`), which has no
bounds, and give nothing as soon as a count is not a word.
-/

namespace SolverClient

/-- Cuts a row of cells into rows, with the index of each cell counted in words. -/
def unflattenInWords? {α : Type} (flat : List (Option α)) (rows cols : Nat) : Option (List (List (Option α))) :=
  let cells := flat.toArray
  (List.range rows).mapM fun r => (List.range cols).mapM fun c => do
    let before ← Word.mul? r cols
    let index ← Word.add? before c
    return (cells[index]?).join

namespace Solution

/-- Cells under the name of a matrix become that matrix. Its cells are counted first. -/
def reshapeInWords? : String × SolvedValue → Option (String × SolvedValue)
  | (name, .sequence cells) =>
    match MatrixName.ofText? name with
    | some m => do
      let _ ← Word.mul? m.rows m.cols
      let rows ← unflattenInWords? cells m.rows m.cols
      return (m.base, .matrix rows)
    | none => some (name, .sequence cells)
  | entry => some entry

/-- Makes matrices of entries and puts them in order, one entry after the other; no name may come twice. -/
def collectInWords? : List (String × SolvedValue) → OrderedMap SolvedValue →
    Option (Except SolutionError (OrderedMap SolvedValue))
  | [], done => some (.ok done)
  | entry :: rest, done =>
    match reshapeInWords? entry with
    | none => none
    | some (name, value) =>
      if done.contains name then some (.error (.shapeConflict name))
      else collectInWords? rest (done ++ [(name, value)])

/-- The solution of a list of records. -/
def ofRecordsInWords? (records : List Json) : Option (Except SolutionError Solution) :=
  match gather 0 [] records with
  | .error e => some (.error e)
  | .ok entries => (collectInWords? entries []).map fun collected => collected.map Solution.mk

/-- The solution of a value that must be a list of records. -/
def ofJsonInWords? : Json → Option (Except SolutionError Solution)
  | .arr records => ofRecordsInWords? records
  | _ => some (.error (.malformedReply .notRecords))

/-- The solutions of a list of values, up to the first that is none. -/
def listInWords? : List Json → Option (Except SolutionError (List Solution))
  | [] => some (.ok [])
  | v :: rest =>
    match ofJsonInWords? v with
    | none => none
    | some (.error e) => some (.error e)
    | some (.ok s) => (listInWords? rest).map fun solutions => solutions.map (s :: ·)

end Solution

/-- The solutions of the content of a reply, unless it reports a failure. -/
def Reply.solutionsInWords? (r : Reply) : Option (Except SolutionError (Option (List Solution))) :=
  if r.isOk then
    match r.content with
    | .arr entries => (Solution.listInWords? entries).map fun solutions => solutions.map some
    | _ => some (.error (.malformedReply .notSolutions))
  else some (.ok none)

end SolverClient
