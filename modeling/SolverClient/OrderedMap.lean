/-!
# Maps in order of insertion

A map from names to values that keeps its names in the order in which they first came. Giving a name another
value leaves it in its place (`keys_insert`).
-/

namespace SolverClient

/-- The entries of a map, in order. -/
abbrev OrderedMap (α : Type) := List (String × α)

namespace OrderedMap

variable {α : Type}

/-- The value of a name, if it has one. -/
def get? (m : OrderedMap α) (key : String) : Option α := m.lookup key

/-- The name has a value. -/
def contains (m : OrderedMap α) (key : String) : Bool := (m.get? key).isSome

/-- A new name goes to the end; one that is there already keeps its place and takes the new value. -/
def insert : OrderedMap α → String → α → OrderedMap α
  | [], key, v => [(key, v)]
  | (k, w) :: m, key, v => if k = key then (k, v) :: m else (k, w) :: insert m key v

/-- The map of a list of entries, the last one of a name giving its value. -/
def ofEntries (entries : List (String × α)) : OrderedMap α := entries.foldl (fun m e => m.insert e.1 e.2) []

/-- The names in order. -/
def keys (m : OrderedMap α) : List String := m.map Prod.fst

/-- Replacing a value keeps the names; a new name comes last. -/
theorem keys_insert (m : OrderedMap α) (key : String) (v : α) :
    (m.insert key v).keys = if key ∈ m.keys then m.keys else m.keys ++ [key] := by
  induction m with
  | nil => rfl
  | cons entry m ih =>
    obtain ⟨k, w⟩ := entry
    by_cases h : k = key
    · simp [insert, keys, h]
    · simp only [insert, keys, h, if_false, List.map_cons, List.mem_cons] at ih ⊢
      rw [ih]
      by_cases hm : key ∈ List.map Prod.fst m <;> simp [hm, Ne.symm h]

/-- The value of a name is the one it was given last. -/
theorem get?_insert (m : OrderedMap α) (key other : String) (v : α) :
    (m.insert key v).get? other = if other = key then some v else m.get? other := by
  induction m with
  | nil => by_cases h : other = key <;> simp [insert, get?, List.lookup_cons, h, beq_false_of_ne]
  | cons entry m ih =>
    obtain ⟨k, w⟩ := entry
    simp only [get?] at ih
    by_cases hk : k = key
    · subst hk
      by_cases h : other = k <;> simp [insert, get?, List.lookup_cons, h, beq_false_of_ne]
    · by_cases h : other = key
      · subst h
        simp [insert, get?, List.lookup_cons, hk, Ne.symm hk, beq_false_of_ne, ih]
      · by_cases ho : other = k <;> simp [insert, get?, List.lookup_cons, hk, h, ho, beq_false_of_ne, ih]

end OrderedMap

end SolverClient
