import SolverClient.Json.Basic
import SolverClient.ModelError

/-!
# Fields of documents

Readers for the fields of a document, each for one type of value. A required field must be there with a value of
its type. An optional field may be absent or null; a value of another type is refused all the same. Every
refusal names the field.
-/

namespace SolverClient.Fields

/-- The value of a field that must be there and be accepted by `read`. -/
def required {α : Type} (what : Expectation) (read : Json → Option α) (d : Fields) (key : String) :
    Except ModelError α :=
  match d.get? key with
  | none => .error (.malformed key .missing)
  | some v =>
    match read v with
    | none => .error (.malformed key (.expected what))
    | some a => .ok a

/-- The value of a field that may be absent or null, and else must be accepted by `read`. -/
def optional {α : Type} (what : Expectation) (read : Json → Option α) (d : Fields) (key : String) :
    Except ModelError (Option α) :=
  match d.get? key with
  | none => .ok none
  | some .null => .ok none
  | some v =>
    match read v with
    | none => .error (.malformed key (.expected what))
    | some a => .ok (some a)

/-- A text. -/
def string : Fields → String → Except ModelError String := required .string Json.asString?

/-- A text, or none. -/
def string? : Fields → String → Except ModelError (Option String) := optional .string Json.asString?

/-- An integer of 64 bits with sign. -/
def integer : Fields → String → Except ModelError Int := required .integer Json.asInt?

/-- An integer of 64 bits with sign, or none. -/
def integer? : Fields → String → Except ModelError (Option Int) := optional .integer Json.asInt?

/-- An integer of 64 bits without sign. -/
def count : Fields → String → Except ModelError Nat := required .count Json.asCount?

/-- Any number, as a double. -/
def number : Fields → String → Except ModelError Float := required .number Json.asFloat?

/-- An array. -/
def array : Fields → String → Except ModelError (List Json) := required .array Json.asArray?

/-- An array; an absent or null field holds no items. -/
def arrayOrEmpty (d : Fields) (key : String) : Except ModelError (List Json) :=
  (optional .array Json.asArray? d key).map (·.getD [])

/-- An object. -/
def object : Fields → String → Except ModelError Fields := required .object Json.asFields?

end SolverClient.Fields

namespace SolverClient.Json

/-- The entries of a value that must be an object, refused under the name of the field that it stands in. -/
def fieldsOf (field : String) (v : Json) : Except ModelError Fields :=
  match v with
  | obj d => .ok d
  | _ => .error (.malformed field (.expected .object))

end SolverClient.Json
