import SolverClient.OrderedMap

/-!
# Tables of a TOML document

The values of a document and the rules by which its tables grow. A table may be written in one place only: under
a header, by dotted keys, or inline. A table that is there only because a header names one inside it may still
get its own header. No key is given twice.
-/

namespace SolverClient.Toml

/-- How a table came to be. -/
inductive Origin where
  /-- A header of its own. -/
  | header
  /-- The header of a table inside it. -/
  | implied
  /-- A dotted key. -/
  | dotted
  /-- Braces; such a table is complete. -/
  | inline
  deriving DecidableEq

/-- A value of a document. Of doubles and moments in time only their presence is kept. -/
inductive Value where
  | text (s : String)
  | integer (n : Int)
  | real
  | flag (b : Bool)
  | moment
  | list (items : List Value)
  | table (origin : Origin) (entries : List (String × Value))
  /-- Tables under a header of their own kind, which adds one each time. -/
  | tables (items : List (List (String × Value)))

/-- The entries of a table. -/
abbrev Entries := OrderedMap Value

/-- Changes the table at a path by `change`, which is told how the table came to be. Tables on the way that are
not there are made, by dotted keys or by a header. An inline table lets nothing in, nor does a table with a
header let dotted keys in. -/
def changeAt (dotted : Bool) (change : Origin → Entries → Option Entries) :
    List String → Origin → Entries → Option Entries
  | [], origin, entries => change origin entries
  | key :: path, _, entries =>
    match entries.get? key with
    | none =>
      let made : Origin := if dotted then .dotted else .implied
      (changeAt dotted change path made []).map fun inner => entries.insert key (.table made inner)
    | some (.table origin inner) =>
      if origin = .inline ∨ (dotted = true ∧ origin = .header) then none
      else (changeAt dotted change path origin inner).map fun inner => entries.insert key (.table origin inner)
    | some (.tables items) =>
      match items.getLast? with
      | none => none
      | some inner =>
        (changeAt dotted change path .header inner).map fun inner =>
          entries.insert key (.tables (items.dropLast ++ [inner]))
    | some _ => none

/-- Opens a table by its header. -/
def openTable (path : List String) (name : String) (root : Entries) : Option Entries :=
  changeAt false (fun _ entries =>
    match entries.get? name with
    | none => some (entries.insert name (.table .header []))
    | some (.table .implied inner) => some (entries.insert name (.table .header inner))
    | some _ => none) path .header root

/-- Opens one more table of a list of tables. -/
def openItem (path : List String) (name : String) (root : Entries) : Option Entries :=
  changeAt false (fun _ entries =>
    match entries.get? name with
    | none => some (entries.insert name (.tables [[]]))
    | some (.tables items) => some (entries.insert name (.tables (items ++ [[]])))
    | some _ => none) path .header root

/-- Gives a dotted key a value in the table at `current`. -/
def addKey (current path : List String) (name : String) (v : Value) (root : Entries) : Option Entries :=
  let add (origin : Origin) (entries : Entries) : Option Entries :=
    if (decide (origin = .dotted) == path.isEmpty) || entries.contains name then none
    else some (entries.insert name v)
  changeAt false (changeAt true add path) current .header root

end SolverClient.Toml
