import SolverClient.Model.Document
import SolverClient.Variable.InWords

/-!
# Models written with counts in words

The document of a model as a client writes it that holds its counts in words. There is none, not even an error, if the
document of a variable cannot be written. What is wrong with the limit or the search is found before that.
-/

namespace SolverClient.Model

/-- The document of a model. -/
def toFieldsInWords? (m : Model) (final : Bool) : Option (Except ModelError Fields) :=
  match m.searchFields final with
  | .error e => some (.error e)
  | .ok search => (m.vars.mapM Variable.toFieldsInWords?).map fun vars => .ok (m.fieldsAround vars search)

/-- The text of the document of a model. -/
def toTextInWords? (m : Model) (final : Bool) : Option (Except ModelError String) :=
  (m.toFieldsInWords? final).map fun written => written.map fun d => (Json.obj d).render

end SolverClient.Model
