import SolverClient.Decimal.Format
import SolverClient.Json.Basic

/-!
# Kinds of values and numbers

The three kinds of values that a variable ranges over, and the numbers that bound its domain: integers and
doubles, kept apart so that a document says `3` or `3.0` as the caller did.
-/

namespace SolverClient

/-- The kinds of values of a variable. -/
inductive ValueKind where
  | integer
  | float
  | boolean
  deriving DecidableEq

namespace ValueKind

/-- The word for a kind in documents and messages. -/
def tag : ValueKind → String
  | integer => "integer"
  | float => "float"
  | boolean => "boolean"

/-- The kind that a word for a set of values names, in any case. All words but two name the integers. -/
def ofSetName (s : String) : ValueKind :=
  let name := String.ofList (s.toList.map Char.toLower)
  if name = "boolean" then boolean else if name = "float" then float else integer

/-- The word for a kind names it. -/
theorem ofSetName_tag (k : ValueKind) : ofSetName k.tag = k := by
  cases k <;> decide +kernel

end ValueKind

/-- A number of a domain or an exponent. -/
inductive Numeric where
  | int (n : Int)
  | float (x : Float)
  deriving BEq

namespace Numeric

/-- A number as a document holds it: a double that is not finite has no number there and is null. -/
def toJson : Numeric → Json
  | int n => .int n
  | float x => if x.isFinite then .float x else .null

/-- A number of a document. An integer past the 64 bits with sign becomes the nearest double. -/
def ofJson? : Json → Option Numeric
  | .int n => some (if Word.isSigned n then int n else float (Decimal.ofInt n))
  | .float x => some (float x)
  | _ => none

/-- A number as messages and expressions write it. -/
def text : Numeric → String
  | int n => toString n
  | float x => Decimal.expressionText x

/-- A finite number is one that a document can hold. -/
def isFinite : Numeric → Bool
  | int _ => true
  | float x => x.isFinite

end Numeric

namespace Json

/-- Any number as a double. -/
def asFloat? : Json → Option Float
  | int n => some (Decimal.ofInt n)
  | float x => some x
  | _ => none

end Json

end SolverClient
