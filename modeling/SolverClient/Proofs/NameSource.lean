import Mathlib.Data.List.Nodup
import SolverClient.NameSource
import SolverClient.Proofs.Grid
import SolverClient.Proofs.MatrixName

/-!
# Sources that never repeat themselves

A source never repeats itself (`NameSource.NeverRepeats`) if no two of the names that it still has to give are the same.
It stays so however many names are taken from it (`NameSource.NeverRepeats.drop`), and the names taken from it differ
(`NameSource.NeverRepeats.nodup_take`). A stem with a count never repeats itself, as a count is known by its digits
(`NameSource.neverRepeats_counting`). Random names use up their characters one by one (`NameSource.toList_take_random`).
-/

namespace SolverClient

/-- Different counts are written differently. -/
theorem Text.toString_injective : Function.Injective (fun n : Nat => toString n) := by
  intro m n h
  have hdigits : Nat.toDigits 10 m = Nat.toDigits 10 n := by
    rw [← toList_toString, ← toList_toString]
    exact congrArg String.toList h
  rw [← Nat.ofDigitChars_ten_toDigits (n := m), hdigits, Nat.ofDigitChars_ten_toDigits]

namespace NameSource

/-- The source without its next names. -/
def drop (s : NameSource) (n : Nat) : NameSource := ⟨s.name, s.drawn + n⟩

/-- The name that comes after `n` others. -/
def nth (s : NameSource) (n : Nat) : String := s.name (s.drawn + n)

/-- No two of the names that are still to come are the same. -/
def NeverRepeats (s : NameSource) : Prop := Function.Injective s.nth

variable {s : NameSource}

@[simp]
theorem nth_drop (s : NameSource) (m n : Nat) : (s.drop m).nth n = s.nth (m + n) := by
  simp [nth, drop, Nat.add_assoc]

@[simp]
theorem drop_drop (s : NameSource) (m n : Nat) : (s.drop m).drop n = s.drop (m + n) := by
  simp [drop, Nat.add_assoc]

theorem take_eq_map_nth (s : NameSource) (n : Nat) : s.take n = (List.range n).map s.nth := s.take_eq_map n

namespace NeverRepeats

/-- Taking names leaves a source that never repeats itself. -/
theorem drop (h : s.NeverRepeats) (n : Nat) : (s.drop n).NeverRepeats := by
  intro i j hij
  rw [nth_drop, nth_drop] at hij
  exact Nat.add_left_cancel (h hij)

theorem nodup_take (h : s.NeverRepeats) (n : Nat) : (s.take n).Nodup := by
  rw [take_eq_map_nth]
  exact List.nodup_range.map h

end NeverRepeats

/-- **A stem with a count never repeats itself**, wherever the count stands. -/
theorem neverRepeats_counting (stem : String) (drawn : Nat) : ((counting stem).drop drawn).NeverRepeats := by
  intro i j hij
  have hcount : toString (0 + drawn + i) = toString (0 + drawn + j) := (String.append_right_inj stem).1 hij
  exact Nat.add_left_cancel (Text.toString_injective hcount)

/-- **Random names have sixteen characters each**, and together they are the characters that were drawn, in order. -/
theorem toList_take_random (drawn : Nat → Char) (n : Nat) :
    (∀ name ∈ (random drawn).take n, name.toList.length = randomLength) ∧
      ((random drawn).take n).flatMap String.toList = (List.range (n * randomLength)).map drawn := by
  rw [take_eq_map_nth]
  constructor
  · intro name hname
    obtain ⟨i, -, rfl⟩ := List.mem_map.1 hname
    simp [nth, random]
  · rw [← Grid.flatMap_index, List.map_flatMap, List.flatMap_map]
    simp [nth, random, Function.comp_def]

end NameSource

end SolverClient
