import SolverClient.Proofs.Grid
import SolverClient.Word

/-!
# Checked words

A checked operation gives the exact number if that is a word, and else nothing. So do a product and a sum after it
(`Word.mul?_bind_add?`), which is how the index of a place of a grid is counted. The index is a word at every place if
the number of places is one (`Grid.index_in_words`). A list is counted item by item: to all images, or to nothing if one
item has none.
-/

namespace SolverClient

namespace Word

variable {m n : Nat}

theorem checked?_of_lt (h : n < bound64) : checked? n = some n := if_pos h

theorem checked?_of_le (h : bound64 ≤ n) : checked? n = none := if_neg (Nat.not_lt.2 h)

theorem mul?_of_lt (h : m * n < bound64) : mul? m n = some (m * n) := checked?_of_lt h

theorem mul?_of_le (h : bound64 ≤ m * n) : mul? m n = none := checked?_of_le h

theorem add?_of_lt (h : m + n < bound64) : add? m n = some (m + n) := checked?_of_lt h

/-- A product that is no word leaves a sum with it none either. -/
theorem mul?_bind_add? (l m n : Nat) : ((mul? l m).bind fun k => add? k n) = checked? (l * m + n) := by
  by_cases h : l * m < bound64
  · rw [mul?_of_lt h]
    rfl
  · have hle := Nat.not_lt.1 h
    rw [mul?_of_le hle, checked?_of_le (Nat.le_trans hle (Nat.le_add_right _ _))]
    rfl

end Word

/-- Where each item has its image, so have all. -/
theorem mapM_eq_some_map {α β : Type} {f : α → Option β} {g : α → β} {l : List α} (h : ∀ a ∈ l, f a = some (g a)) :
    l.mapM f = some (l.map g) := by
  induction l with
  | nil => rfl
  | cons a l ih =>
    rw [List.mapM_cons, h a List.mem_cons_self, ih fun b hb => h b (List.mem_cons_of_mem _ hb)]
    rfl

/-- Where an item comes to nothing, so does the list. -/
theorem mapM_eq_none_of_mem {α β : Type} {f : α → Option β} {l : List α} {a : α} (ha : a ∈ l) (h : f a = none) :
    l.mapM f = none := by
  induction l with
  | nil => cases ha
  | cons b l ih =>
    rw [List.mapM_cons]
    rcases List.mem_cons.1 ha with rfl | ha
    · rw [h]
      rfl
    · rw [ih ha]
      cases f b <;> rfl

/-- The index of a place of a grid is a word, and so is what comes before its row, if the number of places is one. -/
theorem Grid.index_in_words {rows cols r c : Nat} (h : rows * cols < Word.bound64) (hr : r < rows) (hc : c < cols) :
    r * cols < Word.bound64 ∧ r * cols + c < Word.bound64 := by
  have hindex : r * cols + c < Word.bound64 := Nat.lt_trans (Grid.index_lt hr hc) h
  exact ⟨Nat.lt_of_le_of_lt (Nat.le_add_right _ _) hindex, hindex⟩

end SolverClient
