/-!
# Grids in one row

The places of a grid with a number of columns are counted row by row: the place in a row and a column has the index
`row * cols + col`. Inside the grid an index is less than the number of places (`Grid.index_lt`), and no two places have
the same one (`Grid.index_inj`): row by row they are all numbers below that one (`Grid.flatMap_index`). All of them are
below a bound iff the number of places is not above it (`Grid.forall_index_lt_iff`).
-/

namespace SolverClient.Grid

variable {rows cols r c r' c' : Nat}

theorem index_lt (hr : r < rows) (hc : c < cols) : r * cols + c < rows * cols :=
  calc r * cols + c < (r + 1) * cols := by rw [Nat.succ_mul]; omega
    _ ≤ rows * cols := Nat.mul_le_mul_right _ hr

theorem index_div (hc : c < cols) : (r * cols + c) / cols = r := by
  rw [Nat.add_comm, Nat.add_mul_div_right _ _ (Nat.zero_lt_of_lt hc), Nat.div_eq_of_lt hc, Nat.zero_add]

theorem index_mod (hc : c < cols) : (r * cols + c) % cols = c := by
  rw [Nat.add_comm, Nat.add_mul_mod_self_right, Nat.mod_eq_of_lt hc]

/-- The row and the column are those of the index. -/
theorem index_inj (hc : c < cols) (hc' : c' < cols) (h : r * cols + c = r' * cols + c') : r = r' ∧ c = c' := by
  constructor
  · rw [← index_div (r := r) hc, h, index_div hc']
  · rw [← index_mod (r := r) hc, h, index_mod hc']

/-- **Row by row the indices of a grid are all numbers below the number of places, in order.** -/
theorem flatMap_index (rows cols : Nat) :
    ((List.range rows).flatMap fun r => (List.range cols).map fun c => r * cols + c) = List.range (rows * cols) := by
  induction rows with
  | zero => rw [Nat.zero_mul]; rfl
  | succ rows ih =>
    rw [List.range_succ, List.flatMap_append, ih, List.flatMap_singleton, Nat.succ_mul, List.range_add]

/-- The last place has the greatest index, one less than the number of places. -/
theorem forall_index_lt_iff {bound : Nat} :
    (∀ r c, r < rows → c < cols → r * cols + c < bound) ↔ rows * cols ≤ bound := by
  constructor
  · intro h
    cases rows with
    | zero => rw [Nat.zero_mul]; exact Nat.zero_le _
    | succ rows =>
      cases cols with
      | zero => exact Nat.zero_le _
      | succ cols =>
        have hlast := h rows cols (Nat.lt_succ_self _) (Nat.lt_succ_self _)
        rw [Nat.succ_mul]
        exact hlast
  · exact fun h r c hr hc => Nat.lt_of_lt_of_le (index_lt hr hc) h

end SolverClient.Grid
