import SolverClient.Proofs.Solution.InWords

/-!
# Cutting cells into rows and laying rows out

A row of cells that is cut into rows and laid out again is the row itself up to the number of places, with open cells
for those that are missing (`flatten_unflatten`). Rows of one length that are laid out and cut again are the same rows
(`unflatten_flatten`). Both hold for the cutter with counts in words where the number of places is a word
(`unflatten_exact`).
-/

namespace SolverClient

variable {α : Type} {rows cols : Nat}

theorem flatten_eq (m : List (List (Option α))) : flatten m = m.flatten := List.flatMap_id'

/-- The cells at the indices below a number, an open one where there is none. -/
theorem map_join_getElem?_range (flat : List (Option α)) (n : Nat) :
    ((List.range n).map fun i => (flat[i]?).join) = flat.take n ++ List.replicate (n - flat.length) none := by
  have hlength : ((List.range n).map fun i => (flat[i]?).join).length =
      (flat.take n ++ List.replicate (n - flat.length) none).length := by
    simp only [List.length_map, List.length_range, List.length_append, List.length_take, List.length_replicate]
    omega
  refine List.ext_getElem hlength fun i hi _ => ?_
  rw [List.length_map, List.length_range] at hi
  rw [List.getElem_map, List.getElem_range]
  by_cases hlt : i < flat.length
  · have htake : i < (flat.take n).length := by
      rw [List.length_take]
      omega
    rw [List.getElem_append_left htake, List.getElem_take, List.getElem?_eq_getElem hlt]
    rfl
  · have htake : (flat.take n).length ≤ i := by
      rw [List.length_take]
      omega
    rw [List.getElem_append_right htake, List.getElem_replicate, List.getElem?_eq_none (Nat.not_lt.1 hlt)]
    rfl

/-- **Cells that are cut and laid out again** are those up to the number of places, then as many open ones as are
missing. -/
theorem flatten_unflatten (flat : List (Option α)) (rows cols : Nat) :
    flatten (unflatten flat rows cols) =
      flat.take (rows * cols) ++ List.replicate (rows * cols - flat.length) none :=
  calc flatten (unflatten flat rows cols)
      = ((List.range rows).flatMap fun r => (List.range cols).map fun c => r * cols + c).map
          fun i => (flat[i]?).join := by
        simp only [flatten, unflatten, List.flatMap_map, List.map_flatMap, List.map_map, List.getElem?_toArray,
          Function.comp_def]
    _ = (List.range (rows * cols)).map fun i => (flat[i]?).join := by rw [Grid.flatMap_index]
    _ = flat.take (rows * cols) ++ List.replicate (rows * cols - flat.length) none := map_join_getElem?_range flat _

/-- As many cells as there are places are laid out as they were. -/
theorem flatten_unflatten_of_length {flat : List (Option α)} (h : flat.length = rows * cols) :
    flatten (unflatten flat rows cols) = flat := by
  rw [flatten_unflatten, ← h, List.take_length, Nat.sub_self, List.replicate_zero, List.append_nil]

theorem map_length_eq_replicate {m : List (List (Option α))} (hrows : m.length = rows)
    (hcols : ∀ row ∈ m, row.length = cols) : m.map List.length = List.replicate rows cols := by
  refine List.eq_replicate_iff.2 ⟨by rw [List.length_map, hrows], fun n hn => ?_⟩
  obtain ⟨row, hrow, rfl⟩ := List.mem_map.1 hn
  exact hcols row hrow

theorem length_flatten {m : List (List (Option α))} (hrows : m.length = rows) (hcols : ∀ row ∈ m, row.length = cols) :
    (flatten m).length = rows * cols := by
  rw [flatten_eq, List.length_flatten, map_length_eq_replicate hrows hcols, List.sum_replicate_nat]

/-- **Rows of one length that are laid out are cut into the same rows again.** -/
theorem unflatten_flatten {m : List (List (Option α))} (hrows : m.length = rows)
    (hcols : ∀ row ∈ m, row.length = cols) : unflatten (flatten m) rows cols = m := by
  have hcells : (unflatten (flatten m) rows cols).flatten = m.flatten := by
    rw [← flatten_eq, ← flatten_eq m]
    exact flatten_unflatten_of_length (length_flatten hrows hcols)
  have hlengths : (unflatten (flatten m) rows cols).map List.length = m.map List.length := by
    rw [map_length_eq_replicate hrows hcols]
    exact map_length_eq_replicate (length_unflatten _ _ _) fun _ => length_of_mem_unflatten
  -- The same cells, cut at the same places.
  exact List.eq_iff_flatten_eq.2 ⟨hcells, hlengths⟩

/-- **Cutting and laying out undo each other, up to cells that are missing or too many.** Let the number of places of a
grid be a word. Whatever cells there are, they are cut without leaving the words into `rows` rows of `cols` cells.
Laid out again these are the first cells, as many as there are places, and then as many open cells as are missing; so
they are the same cells if there were just as many. Any rows of that shape, with open cells or not, are cut from what
they are laid out as. -/
theorem unflatten_exact (h : rows * cols < Word.bound64) :
    (∀ flat : List (Option α), unflattenInWords? flat rows cols = some (unflatten flat rows cols) ∧
      (unflatten flat rows cols).length = rows ∧ (∀ row ∈ unflatten flat rows cols, row.length = cols) ∧
      flatten (unflatten flat rows cols) =
        flat.take (rows * cols) ++ List.replicate (rows * cols - flat.length) none ∧
      (flat.length = rows * cols → flatten (unflatten flat rows cols) = flat)) ∧
    ∀ m : List (List (Option α)), m.length = rows → (∀ row ∈ m, row.length = cols) →
      unflatten (flatten m) rows cols = m ∧ unflattenInWords? (flatten m) rows cols = some m := by
  constructor
  · intro flat
    exact ⟨unflattenInWords?_eq flat h, length_unflatten flat rows cols, fun _ => length_of_mem_unflatten,
      flatten_unflatten flat rows cols, flatten_unflatten_of_length⟩
  · intro m hrows hcols
    have hback := unflatten_flatten hrows hcols
    exact ⟨hback, by rw [unflattenInWords?_eq _ h, hback]⟩

/-- Three cells do not fill two rows of two, while two rows of two with open cells come back as they are. -/
theorem unflatten_exact_openCells : 2 * 2 < Word.bound64 ∧
    flatten (unflatten [some 1, none, some 3] 2 2) = [some 1, none, some 3, none] ∧
    unflattenInWords? (flatten [[none, some 2], [some 3, none]]) 2 2 = some [[none, some 2], [some 3, none]] := by
  have hword : 2 * 2 < Word.bound64 := by decide
  obtain ⟨hcut, hback⟩ := @unflatten_exact Nat 2 2 hword
  obtain ⟨-, -, -, hpadded, -⟩ := hcut [some 1, none, some 3]
  exact ⟨hword, hpadded, (hback _ rfl (by decide)).2⟩

end SolverClient
