/-!
# Sources of names

A model gives its constraints names. They are drawn from a source, an endless sequence of names of which some
are already drawn. The usual source counts (`counting`). Others repeat a list for ever (`cycling`) or cut their names out
of characters that are drawn at random (`random`), whichever these are.
-/

namespace SolverClient

/-- An endless sequence of names and how many of them are drawn. -/
structure NameSource where
  name : Nat → String
  drawn : Nat

namespace NameSource

/-- The next name, and the source without it. -/
def draw (s : NameSource) : String × NameSource := (s.name s.drawn, ⟨s.name, s.drawn + 1⟩)

/-- The next names in order. -/
def take : NameSource → Nat → List String
  | _, 0 => []
  | s, n + 1 => s.draw.1 :: take s.draw.2 n

/-- A stem followed by a count from zero. -/
def counting (stem : String) : NameSource := ⟨fun n => stem ++ toString n, 0⟩

/-- The source of a new model. -/
def standard : NameSource := counting "c"

/-- The names of a list, over and over. -/
def cycling (names : List String) : NameSource := ⟨fun n => names.getD (n % names.length) "", 0⟩

/-- The number of characters of a random name. -/
def randomLength : Nat := 16

/-- Names cut out of an endless sequence of characters, each one behind the one before it. -/
def random (drawn : Nat → Char) : NameSource :=
  ⟨fun n => String.ofList ((List.range randomLength).map fun i => drawn (n * randomLength + i)), 0⟩

/-- Drawing `n` names gives the next `n` names of the sequence. -/
theorem take_eq_map (s : NameSource) (n : Nat) :
    s.take n = (List.range n).map fun i => s.name (s.drawn + i) := by
  induction n generalizing s with
  | zero => rfl
  | succ n ih =>
    simp only [take, draw, ih, List.range_succ_eq_map, List.map_cons, List.map_map, Nat.add_zero]
    congr 1
    apply List.map_congr_left
    intro i _
    simp only [Function.comp, Nat.succ_eq_add_one]
    congr 1
    omega

end NameSource

end SolverClient
