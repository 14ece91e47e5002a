import SolverClient.OrderedMap
import SolverClient.Word

/-!
# JSON values

A JSON value whose objects keep the order in which their keys first came, as documents for the solver need it.
Integers and doubles are different values: `3` and `3.0` are not read by the same readers.
-/

namespace SolverClient

/-- A JSON value. Integers that are read from text are words of 64 bits with or without sign; other
numbers are doubles. -/
inductive Json where
  | null
  | bool (b : Bool)
  | int (n : Int)
  | float (x : Float)
  | str (s : String)
  | arr (items : List Json)
  | obj (fields : List (String × Json))

/-- The entries of an object, in order. -/
abbrev Fields := OrderedMap Json

namespace Json

/-- No value at all. -/
def isNull : Json → Bool
  | null => true
  | _ => false

/-- The text of a string value. -/
def asString? : Json → Option String
  | str s => some s
  | _ => none

/-- The truth value. -/
def asBool? : Json → Option Bool
  | bool b => some b
  | _ => none

/-- An integer of 64 bits with sign. -/
def asInt? : Json → Option Int
  | int n => if Word.isSigned n then some n else none
  | _ => none

/-- A count: an integer of 64 bits without sign. -/
def asCount? : Json → Option Nat
  | int n => if 0 ≤ n ∧ n < Word.bound64 then some n.toNat else none
  | _ => none

/-- The items of an array. -/
def asArray? : Json → Option (List Json)
  | arr items => some items
  | _ => none

/-- The entries of an object. -/
def asFields? : Json → Option Fields
  | obj d => some d
  | _ => none

/-- The value under a key, if the value is an object that has it. -/
def get? (v : Json) (key : String) : Option Json := v.asFields?.bind (·.get? key)

/-- A text, or null where there is none. -/
def ofString? (s : Option String) : Json := (s.map str).getD null

end Json

end SolverClient
