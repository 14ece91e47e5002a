import SolverClient.Text.Blank

/-!
# Search engines

The searches that the solver offers. A person may name one in any case and between blanks (`read?`); a document
spells it exactly (`ofTag?`).
-/

namespace SolverClient

/-- A search of the solver. -/
inductive Searcher where
  /-- Depth first. -/
  | depthFirst
  /-- Branch and bound. -/
  | branchAndBound
  /-- Limited discrepancy. -/
  | limitedDiscrepancy
  /-- A portfolio of searches. -/
  | portfolio
  /-- Restarts. -/
  | restart
  deriving DecidableEq

namespace Searcher

/-- The name of a search in documents. -/
def tag : Searcher → String
  | depthFirst => "DFS"
  | branchAndBound => "BAB"
  | limitedDiscrepancy => "LDS"
  | portfolio => "PBS"
  | restart => "RBS"

/-- All searches. -/
def all : List Searcher := [depthFirst, branchAndBound, limitedDiscrepancy, portfolio, restart]

/-- The search of a name spelt exactly. -/
def ofTag? (s : String) : Option Searcher := all.find? (·.tag == s)

/-- The search of a name in any case of ASCII, with blanks around it. -/
def read? (s : String) : Option Searcher :=
  ofTag? (String.ofList ((Text.stripBy Text.isBlank s.toList).map Char.toUpper))

/-- The search that settings start with. -/
def standard : Searcher := depthFirst

/-- The name of a search names it. -/
theorem ofTag?_tag (s : Searcher) : ofTag? s.tag = some s := by
  cases s <;> decide +kernel

/-- The name of a search is read as that search. -/
theorem read?_tag (s : Searcher) : read? s.tag = some s := by
  cases s <;> decide +kernel

end Searcher

end SolverClient
