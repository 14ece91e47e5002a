import SolverClient.Json.Parser
import SolverClient.Json.Printer
import SolverClient.Model.Basic
import SolverClient.Variable.Document

/-!
# Models in documents

The document of a model, written by `toFields` and read by `ofFields`. The final document, which the solver can
run, names the search; any other leaves it out. A reader takes all variables first and orders them: scalars,
then arrays, then matrices, each in the order of the document. Constraints and objectives are read against them
and kept as they are, so that a constraint without a name stays without one. The writer has no bounds: it says what one
that counts in words writes where it can (`Model.toFieldsInWords?`).
-/

namespace SolverClient.Model

/-- The fields that name the search of a document: only the final one names it, and must. A model with a limit of zero
has no document at all. -/
def searchFields (m : Model) (final : Bool) : Except ModelError Fields := do
  if m.limit = 0 then .error (.request .limitZero)
  match final, m.searcher with
  | true, none => .error .missingSearcher
  | true, some s => .ok [("searcher", .str s.tag)]
  | false, _ => .ok []

/-- The fields of a model around those of its variables and of its search. -/
def fieldsAround (m : Model) (vars : List Fields) (search : Fields) : Fields :=
  [("var", .arr (vars.map .obj)), ("constraint", .arr (m.constraints.map fun c => .obj c.toFields)),
    ("specific", .arr (m.objectives.map fun o => .obj o.toFields)), ("solution_limit", .int m.limit)] ++ search ++
    (m.cutoff.map fun c => (c.key, .obj c.toFields)).toList ++
    (m.callback.map fun url => ("callback_url", .str url)).toList

/-- The document of a model. A model with a limit of zero has none, nor has a final one without a search. -/
def toFields (m : Model) (final : Bool) : Except ModelError Fields := do
  return m.fieldsAround (m.vars.map Variable.toFields) (← m.searchFields final)

/-- The text of the document of a model. -/
def toText (m : Model) (final : Bool) : Except ModelError String := do
  return (Json.obj (← m.toFields final)).render

/-- Scalars, then arrays, then matrices, each in the given order. -/
def arrange (vars : List Variable) : List Variable :=
  vars.filter (·.layout.isScalar) ++
  vars.filter (fun v => !v.layout.isScalar && !v.layout.isMatrix) ++
  vars.filter (·.layout.isMatrix)

/-- The entries of a list of objects, each read by `read`. -/
def entriesOf {α : Type} (d : Fields) (key : String) (read : Fields → Except ModelError α) :
    Except ModelError (List α) := do
  (← d.arrayOrEmpty key).mapM fun v => do read (← Json.fieldsOf key v)

/-- The number of solutions asked for, a positive number of 32 bits. -/
def limitOf (d : Fields) : Except ModelError Nat := do
  match ← d.integer? "solution_limit" with
  | none => .ok 1
  | some n =>
    if 1 ≤ n ∧ n < Word.bound32 then .ok n.toNat
    else .error (.malformed "solution_limit" (.limitOutOfRange n))

/-- The search, if one is named. -/
def searcherOf (d : Fields) : Except ModelError (Option Searcher) := do
  match ← d.string? "searcher" with
  | none => .ok none
  | some text =>
    match Searcher.read? text with
    | some s => .ok (some s)
    | none => .error (.malformed "searcher" (.unknownSearcher text))

/-- The cutoff, under either of its keys but not under both. -/
def cutoffOf (d : Fields) : Except ModelError (Option Cutoff) := do
  match d.get? "cutoff", d.get? "meta_cutoff" with
  | some _, some _ => .error (.malformed "cutoff" .cutoffUnderBothKeys)
  | some v, none => return some (← Cutoff.ofFields (← Json.fieldsOf "cutoff" v))
  | none, some v => return some (← Cutoff.ofFields (← Json.fieldsOf "meta_cutoff" v))
  | none, none => return none

/-- The model of a document. -/
def ofFields (d : Fields) : Except ModelError Model := do
  let vars := arrange (← entriesOf d "var" Variable.ofFields)
  let constraints ← entriesOf d "constraint" (Constraint.ofFields vars)
  let objectives ← entriesOf d "specific" (Objective.ofFields vars)
  let limit ← limitOf d
  let searcher ← searcherOf d
  let cutoff ← cutoffOf d
  let callback ← d.string? "callback_url"
  return { vars, constraints, objectives, searcher, cutoff, callback, limit }

/-- The model of a text. -/
def ofText (text : String) : Except ModelError Model :=
  match Json.parse? text with
  | none => .error (.malformed "model" .notJson)
  | some v => do ofFields (← Json.fieldsOf "model" v)

end SolverClient.Model
