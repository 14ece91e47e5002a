import SolverClient.Json.Field
import SolverClient.MatrixName
import SolverClient.Variable.Basic

/-!
# Variables in documents

The fields of a variable, written by `toFields` and read by `ofFields`. A reader fills in what a document leaves
out: the standard strategies, no place in the order of branching, no restriction of the values. A matrix may
come under its base name and then gets the name that carries its shape.
-/

namespace SolverClient

namespace Domain

/-- The fields of a domain. -/
def toFields : Domain → Fields
  | unrestricted => []
  | bounds low high => [("domlow", low.toJson), ("domup", high.toJson)]
  | specific values => [("specific_domain", .arr (values.map Numeric.toJson))]
  | expression text => [("expr", .str text)]

/-- The value of a field that is there and not null. -/
def presentField (d : Fields) (key : String) : Option Json := (d.get? key).filter fun v => !v.isNull

/-- A number under a field. -/
def numericOf (field : String) (v : Json) : Except ModelError Numeric :=
  match Numeric.ofJson? v with
  | some n => .ok n
  | none => .error (.malformed field (.expected .number))

/-- The domain of a document. Bounds come in pairs, at most one of bounds, values and expression may be there,
and an array has no expression. -/
def ofFields (isArray : Bool) (d : Fields) : Except ModelError Domain := do
  let low := presentField d "domlow"
  let high := presentField d "domup"
  let values := presentField d "specific_domain"
  let expr ← d.string? "expr"
  if 1 < [low.isSome || high.isSome, values.isSome, expr.isSome].count true then
    .error (.malformed "domain" .severalDomains)
  match expr, values, low, high with
  | some text, _, _, _ => if isArray then .error (.malformed "expr" .arrayWithExpression) else .ok (expression text)
  | none, some (.arr items), _, _ => (items.mapM (numericOf "specific_domain")).map specific
  | none, some _, _, _ => .error (.malformed "specific_domain" (.expected .array))
  | none, none, none, none => .ok unrestricted
  | none, none, some l, some h => return bounds (← numericOf "domlow" l) (← numericOf "domup" h)
  | none, none, some _, none => .error (.malformed "domup" .missingUpperBound)
  | none, none, none, some _ => .error (.malformed "domlow" .missingLowerBound)

end Domain

namespace Variable

/-- The kinds of values with the words for a scalar and for an array of them. -/
def typeTags : List (String × ValueKind × Bool) :=
  [("integer", .integer, false), ("float", .float, false), ("boolean", .boolean, false),
    ("integer_array", .integer, true), ("float_array", .float, true), ("boolean_array", .boolean, true)]

/-- The kind of values of a type, and whether it is an array. -/
def ofTypeTag (tag : String) : Except ModelError (ValueKind × Bool) :=
  match typeTags.lookup tag with
  | some t => .ok t
  | none => .error (.unsupportedVariable tag)

/-- The fields of a variable, in the order of documents. -/
def toFields (v : Variable) : Fields :=
  [("name", .str v.name), ("type", .str v.typeTag)] ++
  (match v.layout.strategy? with
    | some s => [("length", .int v.size), ("brancher_variable", .str s.tag)]
    | none => []) ++
  [("brancher_value", .str v.valueStrategy.tag), ("branching_order", .int v.order)] ++
  v.domain.toFields ++
  (match v.layout with
    | .matrix rows cols _ => [("rows", .int rows), ("cols", .int cols), ("subtype", .str "matrix")]
    | _ => [])

/-- A strategy under a field, or the standard one. -/
def strategyField {α : Type} (ofTag? : String → Option α) (standard : α) (d : Fields) (key : String) :
    Except ModelError α := do
  match ← d.string? key with
  | none => .ok standard
  | some text =>
    match ofTag? text with
    | some s => .ok s
    | none => .error (.malformed key (.unknownStrategy text))

/-- The way to pick values, which must be available for the kind. -/
def valueStrategyOf (kind : ValueKind) (d : Fields) : Except ModelError ValueStrategy := do
  let s ← strategyField ValueStrategy.ofTag? .standard d "brancher_value"
  if s.availableFor kind then .ok s else .error (.malformed "brancher_value" (.valueStrategyUnavailable s kind))

/-- The way to pick the next cell, which must be available for the kind. -/
def variableStrategyOf (kind : ValueKind) (d : Fields) : Except ModelError VariableStrategy := do
  let s ← strategyField VariableStrategy.ofTag? .standard d "brancher_variable"
  if s.availableFor kind then .ok s
  else .error (.malformed "brancher_variable" (.variableStrategyUnavailable s kind))

/-- The name and the layout of an array or, where the document says so, a matrix. -/
def arrayLayoutOf (name : String) (kind : ValueKind) (d : Fields) : Except ModelError (String × Layout) := do
  let strategy ← variableStrategyOf kind d
  if (← d.string? "subtype") = some "matrix" then
    let rows ← d.count "rows"
    let cols ← d.count "cols"
    return (← MatrixName.identifier name rows cols, .matrix rows cols strategy)
  else
    return (name, .array (← d.count "length") strategy)

/-- The variable of a document. -/
def ofFields (d : Fields) : Except ModelError Variable := do
  let name ← d.string "name"
  let (kind, isArray) ← ofTypeTag (← d.string "type")
  let valueStrategy ← valueStrategyOf kind d
  let order := (← d.integer? "branching_order").getD noOrder
  let domain ← Domain.ofFields isArray d
  let (name, layout) ← if isArray then arrayLayoutOf name kind d else .ok (name, .scalar)
  return ⟨name, kind, layout, domain, valueStrategy, order⟩

end Variable

end SolverClient
