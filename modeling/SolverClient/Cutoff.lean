import SolverClient.Json.Field

/-!
# Cutoffs

When the search is cut off and started again: a sequence of limits. The plain sequences come from a formula. The
composed ones put two sequences together or repeat the entries of one, and stand under a key of their own in the
document of a model.
-/

namespace SolverClient

/-- A sequence of limits on the search. -/
inductive Cutoff where
  | constant (value : Int)
  | fibonacci
  | geometric (scale : Int) (base : Float)
  | luby (scale : Int)
  | linear (scale : Int)
  | random (seed min max round : Int)
  /-- The first entries of one sequence, then another sequence. -/
  | appender (first : Cutoff) (count : Int) (second : Cutoff)
  | merger (first second : Cutoff)
  /-- Each entry of a sequence several times. -/
  | repeater (sub : Cutoff) (times : Int)
  deriving BEq

namespace Cutoff

/-- The name in documents. -/
def tag : Cutoff → String
  | constant _ => "constant"
  | fibonacci => "fibonacci"
  | geometric .. => "geometric"
  | luby _ => "luby"
  | linear _ => "linear"
  | random .. => "random"
  | appender .. => "appender"
  | merger .. => "merger"
  | repeater .. => "repeater"

/-- The sequence is composed of others. -/
def isComposed : Cutoff → Bool
  | appender .. => true
  | merger .. => true
  | repeater .. => true
  | _ => false

/-- The key in the document of a model. -/
def key (c : Cutoff) : String := if c.isComposed then "meta_cutoff" else "cutoff"

/-- The fields of a sequence, in the order of documents. -/
def toFields : Cutoff → Fields
  | constant value => [("name", .str "constant"), ("value", .int value)]
  | fibonacci => [("name", .str "fibonacci")]
  | geometric scale base =>
    [("name", .str "geometric"), ("scale", .int scale), ("base", (Numeric.float base).toJson)]
  | luby scale => [("name", .str "luby"), ("scale", .int scale)]
  | linear scale => [("name", .str "linear"), ("scale", .int scale)]
  | random seed min max round =>
    [("name", .str "random"), ("seed", .int seed), ("min", .int min), ("max", .int max), ("round", .int round)]
  | appender first count second =>
    [("name", .str "appender"), ("first_cutoff", .obj first.toFields), ("number_from_first", .int count),
      ("second_cutoff", .obj second.toFields)]
  | merger first second =>
    [("name", .str "merger"), ("first_cutoff", .obj first.toFields), ("second_cutoff", .obj second.toFields)]
  | repeater sub times =>
    [("name", .str "repeater"), ("sub_cutoff", .obj sub.toFields), ("repeat", .int times)]

/-- The value under a key is smaller than the object it stands in. -/
theorem sizeOf_lt_of_get? {d : Fields} {key : String} {v : Json} (h : d.get? key = some v) :
    sizeOf v < sizeOf d := by
  induction d with
  | nil => simp [OrderedMap.get?] at h
  | cons entry d ih =>
    obtain ⟨k, w⟩ := entry
    simp only [OrderedMap.get?, List.lookup_cons] at h ih
    split at h
    · cases h
      simp only [List.cons.sizeOf_spec, Prod.mk.sizeOf_spec]
      omega
    · have := ih h
      simp only [List.cons.sizeOf_spec]
      omega

/-- The object under a key, which is smaller than the one it stands in. -/
def child (d : Fields) (key : String) : Except ModelError { e : Fields // sizeOf e < sizeOf d } :=
  match h : d.get? key with
  | none => .error (.malformed key .missing)
  | some (.obj e) => .ok ⟨e, by have := sizeOf_lt_of_get? h; simp only [Json.obj.sizeOf_spec] at this; omega⟩
  | some _ => .error (.malformed key (.expected .object))

/-- The sequence of a document. -/
def ofFields (d : Fields) : Except ModelError Cutoff := do
  let tag ← d.string "name"
  if tag = "constant" then return constant (← d.integer "value")
  else if tag = "fibonacci" then return fibonacci
  else if tag = "geometric" then return geometric (← d.integer "scale") (← d.number "base")
  else if tag = "luby" then return luby (← d.integer "scale")
  else if tag = "linear" then return linear (← d.integer "scale")
  else if tag = "random" then
    return random (← d.integer "seed") (← d.integer "min") (← d.integer "max") (← d.integer "round")
  else if tag = "appender" then
    let ⟨firstFields, _⟩ ← child d "first_cutoff"
    let first ← ofFields firstFields
    let count ← d.integer "number_from_first"
    let ⟨secondFields, _⟩ ← child d "second_cutoff"
    return appender first count (← ofFields secondFields)
  else if tag = "merger" then
    let ⟨firstFields, _⟩ ← child d "first_cutoff"
    let first ← ofFields firstFields
    let ⟨secondFields, _⟩ ← child d "second_cutoff"
    return merger first (← ofFields secondFields)
  else if tag = "repeater" then
    let ⟨subFields, _⟩ ← child d "sub_cutoff"
    let sub ← ofFields subFields
    return repeater sub (← d.integer "repeat")
  else .error (.unknownCutoff tag)
termination_by sizeOf d

end Cutoff

end SolverClient
