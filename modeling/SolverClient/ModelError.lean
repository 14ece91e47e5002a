import SolverClient.Branching

/-!
# What can be wrong with a model

The causes for which a model is refused while it is built, written or read, and the sentence that reports each
of them.
-/

namespace SolverClient

/-- What a reader expects of a field. -/
inductive Expectation where
  | string
  | integer
  | count
  | number
  | exponent
  | array
  | object
  deriving DecidableEq

/-- The words for an expectation. -/
def Expectation.phrase : Expectation → String
  | string => "a string"
  | integer => "an integer"
  | count => "a non-negative integer"
  | number => "a number"
  | exponent => "a numeric exponent"
  | array => "an array"
  | object => "an object"

/-- What is wrong with a field of a document. -/
inductive FieldFault where
  | missing
  | expected (what : Expectation)
  /-- The text is no JSON text. -/
  | notJson
  | unknownStrategy (name : String)
  | valueStrategyUnavailable (strategy : ValueStrategy) (kind : ValueKind)
  | variableStrategyUnavailable (strategy : VariableStrategy) (kind : ValueKind)
  | severalDomains
  | arrayWithExpression
  | missingLowerBound
  | missingUpperBound
  | endOffsetZero
  | unknownSelection (name : String)
  | scalarForArray (name : String)
  | noMatrix (name selection : String)
  | unknownDirection (name : String)
  | limitOutOfRange (limit : Int)
  | unknownSearcher (name : String)
  | cutoffUnderBothKeys
  deriving DecidableEq

/-- The reason that a fault gives. -/
def FieldFault.reason : FieldFault → String
  | missing => "missing"
  | expected what => "expected " ++ what.phrase
  | notJson => "not a JSON text"
  | unknownStrategy name => s!"unknown strategy '{name}'"
  | valueStrategyUnavailable s k => s.tag ++ " is not available for " ++ k.tag ++ " variables"
  | variableStrategyUnavailable s k => s.tag ++ " is not available for " ++ k.tag ++ " arrays"
  | severalDomains => "bounds, specific_domain and expr are mutually exclusive"
  | arrayWithExpression => "arrays cannot carry an expression"
  | missingLowerBound => "missing lower bound"
  | missingUpperBound => "missing upper bound"
  | endOffsetZero => "end offset must be at least 1"
  | unknownSelection name => s!"unknown selection '{name}'"
  | scalarForArray name => s!"'{name}' is a scalar, expected an array"
  | noMatrix name selection => s!"'{name}' is not a matrix, required by '{selection}'"
  | unknownDirection name => s!"expected minimize or maximize, got '{name}'"
  | limitOutOfRange limit => s!"expected >= 1, got {limit}"
  | unknownSearcher name => s!"unknown searcher '{name}'"
  | cutoffUnderBothKeys => "cutoff and meta_cutoff are mutually exclusive"

/-- What is wrong with a request of the caller. -/
inductive RequestFault where
  | unknownSearcher (name : String)
  | unknownValueStrategy (name : String)
  | unknownVariableStrategy (name : String)
  | emptyName
  | severalDomains (name : String)
  | valueStrategyUnavailable (strategy : ValueStrategy) (kind : ValueKind)
  | variableStrategyUnavailable (strategy : VariableStrategy) (kind : ValueKind)
  | emptyArray (name : String)
  | emptyMatrix (name : String) (rows cols : Nat)
  /-- The name carries another shape than the declared one. -/
  | shapeMismatch (name : String) (namedRows namedCols rows cols : Nat)
  | brokenMatrixName (name : String)
  | arrayWithExpression (name : String)
  | needsArray (role name : String)
  | needsMatrix (selection name : String)
  | rowOutside (row rows : Nat)
  | columnOutside (col cols : Nat)
  | sliceOutside (startRow startCol endRow endCol rows cols : Nat)
  | limitZero
  | solveLimitZero
  deriving DecidableEq

/-- The sentence for a fault of a request. -/
def RequestFault.sentence : RequestFault → String
  | unknownSearcher name => s!"unknown searcher '{name}', expected one of DFS, BAB, LDS, PBS, RBS"
  | unknownValueStrategy name => s!"unknown BranchValue strategy '{name}'"
  | unknownVariableStrategy name => s!"unknown BranchVariable strategy '{name}'"
  | emptyName => "variable name must not be empty"
  | severalDomains name =>
    s!"variable '{name}' was given more than one of bounds, specific domain and expression"
  | valueStrategyUnavailable s k => "value strategy " ++ s.tag ++ " is not available for " ++ k.tag ++ " variables"
  | variableStrategyUnavailable s k => "variable strategy " ++ s.tag ++ " is not available for " ++ k.tag ++ " arrays"
  | emptyArray name => s!"array '{name}' must have a positive length"
  | emptyMatrix name rows cols => s!"matrix '{name}' must have positive dimensions, got {rows}x{cols}"
  | shapeMismatch name namedRows namedCols rows cols =>
    s!"'{name}' encodes a {namedRows}x{namedCols} matrix but {rows}x{cols} was declared; pass the base name instead"
  | brokenMatrixName name => s!"'{name}' starts with MATRIX$ but is not a valid matrix identifier"
  | arrayWithExpression name => s!"'{name}' is an array; only scalars can be defined by an expression"
  | needsArray role name => s!"{role} needs an array or matrix, but '{name}' is a scalar"
  | needsMatrix selection name => s!"distinct {selection} needs a matrix, but '{name}' is not one"
  | rowOutside row rows => s!"row {row} is outside a matrix with {rows} rows"
  | columnOutside col cols => s!"column {col} is outside a matrix with {cols} columns"
  | sliceOutside r0 c0 r1 c1 rows cols => s!"slice ({r0},{c0})..=({r1},{c1}) does not fit a {rows}x{cols} matrix"
  | limitZero => "solution_limit must be at least 1"
  | solveLimitZero => "solution_limit must be greater than 0"

/-- Why a model is refused. -/
inductive ModelError where
  | request (fault : RequestFault)
  | missingSearcher
  | unknownConstraint (tag : String)
  | unknownCutoff (tag : String)
  | unsupportedVariable (tag : String)
  | variableNotFound (name : String)
  | malformed (field : String) (fault : FieldFault)
  deriving DecidableEq

/-- The message for a refused model. -/
def ModelError.message : ModelError → String
  | request fault => "Configuration error: " ++ fault.sentence
  | missingSearcher => "No search strategy defined; call set_searcher before exporting the model"
  | unknownConstraint tag => s!"Unknown constraint type: {tag}"
  | unknownCutoff tag => s!"Unknown cutoff: {tag}"
  | unsupportedVariable tag => s!"Unsupported variable type: {tag}"
  | variableNotFound name => s!"Variable '{name}' not found in the model"
  | malformed field fault => s!"Malformed field '{field}': " ++ fault.reason

end SolverClient
