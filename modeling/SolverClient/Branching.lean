import SolverClient.Numeric

/-!
# Branching strategies

How the solver's search picks a value for a variable (`ValueStrategy`) and the next variable inside an array
(`VariableStrategy`). Each strategy has one name in documents and is available for some kinds of values only.
-/

namespace SolverClient

/-- How the search picks the next value of a variable. -/
inductive ValueStrategy where
  | random
  | min
  | median
  | max
  | valuesMin
  | valuesMax
  | rangeMin
  | rangeMax
  | splitMin
  | splitMax
  deriving DecidableEq, Inhabited

namespace ValueStrategy

/-- The name of a strategy in documents. -/
def tag : ValueStrategy → String
  | random => "VAL_RND"
  | min => "VAL_MIN"
  | median => "VAL_MED"
  | max => "VAL_MAX"
  | valuesMin => "VALUES_MIN"
  | valuesMax => "VALUES_MAX"
  | rangeMin => "VAL_RANGE_MIN"
  | rangeMax => "VAL_RANGE_MAX"
  | splitMin => "VAL_SPLIT_MIN"
  | splitMax => "VAL_SPLIT_MAX"

/-- All strategies. -/
def all : List ValueStrategy :=
  [random, min, median, max, valuesMin, valuesMax, rangeMin, rangeMax, splitMin, splitMax]

/-- The strategy of a name, which must be spelt exactly. -/
def ofTag? (s : String) : Option ValueStrategy := all.find? (·.tag == s)

/-- The strategy of a variable whose maker names none. -/
def standard : ValueStrategy := random

/-- The strategy can be used on variables of a kind: integers have an order, neighbours and ranges, doubles have
an order and halves, truth values only two ends. -/
def availableFor (s : ValueStrategy) : ValueKind → Bool
  | .integer => true
  | .float => s ∈ [random, min, max, splitMin, splitMax]
  | .boolean => s ∈ [random, min, max]

/-- The name of a strategy names it. -/
theorem ofTag?_tag (s : ValueStrategy) : ofTag? s.tag = some s := by
  cases s <;> decide +kernel

/-- A word names the strategy that has it for its name. -/
theorem ofTag?_eq_some_iff (word : String) (s : ValueStrategy) : ofTag? word = some s ↔ word = s.tag := by
  constructor
  · intro h
    have htag : s.tag = word := by simpa using List.find?_some h
    exact htag.symm
  · rintro rfl
    exact ofTag?_tag s

end ValueStrategy

/-- How the search picks the next variable of an array. -/
inductive VariableStrategy where
  | noPreference
  | random
  | sizeMin
  | sizeMax
  | regretMinMin
  | regretMinMax
  | degreeMin
  | degreeMax
  | minMin
  | minMax
  | maxMin
  | maxMax
  | degreeSizeMin
  | degreeSizeMax
  deriving DecidableEq, Inhabited

namespace VariableStrategy

/-- The name of a strategy in documents. -/
def tag : VariableStrategy → String
  | noPreference => "VAR_NONE"
  | random => "VAR_RND"
  | sizeMin => "VAR_SIZE_MIN"
  | sizeMax => "VAR_SIZE_MAX"
  | regretMinMin => "VAR_REGRET_MIN_MIN"
  | regretMinMax => "VAR_REGRET_MIN_MAX"
  | degreeMin => "VAR_DEGREE_MIN"
  | degreeMax => "VAR_DEGREE_MAX"
  | minMin => "VAR_MIN_MIN"
  | minMax => "VAR_MIN_MAX"
  | maxMin => "VAR_MAX_MIN"
  | maxMax => "VAR_MAX_MAX"
  | degreeSizeMin => "VAR_DEGREE_SIZE_MIN"
  | degreeSizeMax => "VAR_DEGREE_SIZE_MAX"

/-- All strategies. -/
def all : List VariableStrategy :=
  [noPreference, random, sizeMin, sizeMax, regretMinMin, regretMinMax, degreeMin, degreeMax, minMin, minMax, maxMin,
    maxMax, degreeSizeMin, degreeSizeMax]

/-- The strategy of a name, which must be spelt exactly. -/
def ofTag? (s : String) : Option VariableStrategy := all.find? (·.tag == s)

/-- The strategy of an array whose maker names none. -/
def standard : VariableStrategy := random

/-- The strategy can be used on arrays of a kind. -/
def availableFor (s : VariableStrategy) : ValueKind → Bool
  | .integer => true
  | .float => s ∉ [noPreference, regretMinMin, regretMinMax]
  | .boolean => s ∈ [random, degreeSizeMin, degreeSizeMax]

/-- The name of a strategy names it. -/
theorem ofTag?_tag (s : VariableStrategy) : ofTag? s.tag = some s := by
  cases s <;> decide +kernel

/-- A word names the strategy that has it for its name. -/
theorem ofTag?_eq_some_iff (word : String) (s : VariableStrategy) : ofTag? word = some s ↔ word = s.tag := by
  constructor
  · intro h
    have htag : s.tag = word := by simpa using List.find?_some h
    exact htag.symm
  · rintro rfl
    exact ofTag?_tag s

end VariableStrategy

end SolverClient
