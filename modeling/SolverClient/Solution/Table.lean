import SolverClient.Solution.Record

/-!
# Solutions as tables

A solution for people to read: a line for each scalar and each array, and a line for each row of a matrix under
a heading with its shape. Lines are in the order of names. Names are padded to the longest one, whose length
counts in bytes, while the padding counts characters.
-/

namespace SolverClient.Solution

/-- The text of a cell; a text stands for itself, without quotes. -/
def cellText : Cell → String
  | none => "-"
  | some (.str s) => s
  | some v => v.render

/-- A name followed by blanks up to a number of characters. -/
def padName (width : Nat) (name : String) : String :=
  name ++ String.ofList (List.replicate (width - name.length) ' ')

/-- The lines of an entry. -/
def entryLines (width : Nat) : String × SolvedValue → List String
  | (name, .scalar none) => [padName width name ++ ": unassigned"]
  | (name, .scalar cell) => [padName width name ++ ": " ++ cellText cell]
  | (name, .sequence cells) => [padName width name ++ ": [" ++ ", ".intercalate (cells.map cellText) ++ "]"]
  | (name, .matrix []) => [padName width name ++ ": []"]
  | (name, .matrix (row :: rows)) =>
    (name ++ ": (" ++ toString (rows.length + 1) ++ " x " ++ toString row.length ++ " matrix)") ::
      (row :: rows).map fun cells => "    " ++ " ".intercalate (cells.map cellText)

/-- The entries in the order of their names. -/
def sortedEntries (s : Solution) : List (String × SolvedValue) :=
  s.entries.mergeSort fun a b => !decide (b.1 < a.1)

/-- The line around the table. -/
def rule : String := String.ofList (List.replicate 40 '-')

/-- The lines of a solution. -/
def lines (s : Solution) : List String :=
  if s.entries.isEmpty then ["Empty solution"]
  else
    let width := (s.names.map String.utf8ByteSize).foldl max 0
    [rule, "Solution:", rule] ++ s.sortedEntries.flatMap (entryLines width) ++ [rule]

/-- The text of a solution, each line with its end. -/
def table (s : Solution) : String := String.join (s.lines.map (· ++ "\n"))

end SolverClient.Solution
