import Mathlib.Data.List.Nodup
import Mathlib.Data.List.Perm.Subperm
import Mathlib.Data.List.ProdSigma
import SolverClient.Proofs.Grid
import SolverClient.Proofs.View

/-!
# Step after step over a view

`View.Cursor.after` is a walk after a number of steps. What one step can do is said once (`View.Cursor.next_cases`): it
drops the first of the places to come, also when there is none (`View.Cursor.next_eq`), keeps the view, and does not
count past the ends of the span (`View.Cursor.Within.next`). So step `n` from the start meets cell `n` of the view, and
every step past the last cell meets none (`View.next_after`). The indices of the cells of a view inside its grid are
pairwise different and less than the number of cells of the variable (`View.nodup_indices`, `View.indices_lt`), which
the view does not exceed (`View.size_le`).
-/

namespace SolverClient

/-! ## Places, one by one -/

section Places

variable {s : Span}

theorem nodup_between (start stop : Nat) : (between start stop).Nodup :=
  List.nodup_range.map fun _ _ h => Nat.add_left_cancel h

theorem mem_between {start stop n : Nat} : n ∈ between start stop ↔ start ≤ n ∧ n < stop := by
  simp only [between, List.mem_map, List.mem_range]
  constructor
  · rintro ⟨k, hk, rfl⟩
    omega
  · exact fun h => ⟨n - start, by omega, by omega⟩

theorem Span.mem_places {p : Nat × Nat} :
    p ∈ s.places ↔ (s.startRow ≤ p.1 ∧ p.1 < s.endRow) ∧ s.startCol ≤ p.2 ∧ p.2 < s.endCol := by
  rw [← mem_between, ← mem_between]
  exact List.mem_product

/-- No place comes twice. -/
theorem Span.nodup_places (s : Span) : s.places.Nodup :=
  (nodup_between s.startRow s.endRow).product (nodup_between s.startCol s.endCol)

/-- The columns from a start on and before an end are counted from the start. -/
theorem getElem?_between {start stop c : Nat} (h : c < stop - start) : (between start stop)[c]? = some (start + c) := by
  simp [between, h]

/-- A row has a place in each column. -/
theorem Span.length_rowPlaces (s : Span) (row : Nat) : (s.rowPlaces row s.startCol).length = s.endCol - s.startCol := by
  rw [rowPlaces, List.length_map, between, List.length_map, List.length_range]

/-- **The places come row by row**: the place in a row and a column of the span is that many full rows and columns
after the first. -/
theorem Span.getElem?_places {r c : Nat} (hr : r < s.endRow - s.startRow) (hc : c < s.endCol - s.startCol) :
    s.places[r * (s.endCol - s.startCol) + c]? = some (s.startRow + r, s.startCol + c) := by
  -- the rows are taken off from the first on
  have hlength := s.length_rowPlaces s.startRow
  induction r generalizing s with
  | zero =>
    rw [places_of_lt (by omega), Nat.zero_mul, Nat.zero_add, List.getElem?_append_left (by omega), rowPlaces,
      List.getElem?_map, getElem?_between hc]
    rfl
  | succ r ih =>
    have hlater := @ih { s with startRow := s.startRow + 1 } (by simp only; omega) hc (Span.length_rowPlaces _ _)
    have hskip : (r + 1) * (s.endCol - s.startCol) + c - (s.endCol - s.startCol) =
        r * (s.endCol - s.startCol) + c := by rw [Nat.succ_mul]; omega
    rw [places_of_lt (by omega), List.getElem?_append_right (by rw [hlength, Nat.succ_mul]; omega), hlength, hskip,
      hlater]
    simp only [Option.some.injEq, Prod.mk.injEq, and_true]
    omega

end Places

namespace View

/-! ## What a step does -/

namespace Cursor

/-- The walk after a number of steps. -/
def after (w : Cursor) : Nat → Cursor
  | 0 => w
  | n + 1 => (w.after n).next.2

/-- The walk before the place that comes next: past the last column that is in the next row. -/
def settled (w : Cursor) : Cursor :=
  if w.view.span.endCol ≤ w.col then ⟨w.view, w.row + 1, w.view.span.startCol⟩ else w

variable {v : View} {w : Cursor}

@[simp] theorem settled_view : w.settled.view = w.view := by
  unfold settled
  split <;> rfl

theorem settled_col_lt (h : w.view.span.startCol < w.view.span.endCol) : w.settled.col < w.view.span.endCol := by
  unfold settled
  split
  · exact h
  · omega

theorem rest_settled : w.settled.rest = w.rest := by
  unfold settled
  split
  · exact (rest_of_endCol_le ‹_›).symm
  · rfl

/-- **A step meets the cell of the place that comes next**, unless the span has no columns or its rows are over. -/
theorem next_cases (w : Cursor) :
    (w.view.span.endCol ≤ w.view.span.startCol ∧ w.next = (none, w)) ∨
    (w.view.span.startCol < w.view.span.endCol ∧ w.view.span.endRow ≤ w.settled.row ∧ w.next = (none, w.settled)) ∨
    (w.view.span.startCol < w.view.span.endCol ∧ w.settled.row < w.view.span.endRow ∧
      w.next = (some (w.view.array.cell w.settled.row w.settled.col), ⟨w.view, w.settled.row, w.settled.col + 1⟩)) := by
  by_cases hcols : w.view.span.endCol ≤ w.view.span.startCol
  · exact Or.inl ⟨hcols, if_pos hcols⟩
  have hnext : w.next = if w.view.span.endRow ≤ w.settled.row then (none, w.settled)
      else (some (w.settled.view.array.cell w.settled.row w.settled.col),
        ⟨w.settled.view, w.settled.row, w.settled.col + 1⟩) := if_neg hcols
  rw [settled_view] at hnext
  by_cases hrows : w.view.span.endRow ≤ w.settled.row
  · exact Or.inr (Or.inl ⟨Nat.not_le.1 hcols, hrows, hnext.trans (if_pos hrows)⟩)
  · exact Or.inr (Or.inr ⟨Nat.not_le.1 hcols, Nat.not_le.1 hrows, hnext.trans (if_neg hrows)⟩)

/-! ## What a walk keeps -/

/-- A walk over the view whose counts have not gone past the ends of the span. It has only left the last column of
rows that are in the span. -/
structure Within (v : View) (w : Cursor) : Prop where
  view_eq : w.view = v
  startCol_le : v.span.startCol ≤ w.col
  col : w.col = v.span.startCol ∨ w.col ≤ v.span.endCol
  row : w.row = v.span.startRow ∨ w.row ≤ v.span.endRow
  row_lt : v.span.startCol < v.span.endCol → v.span.endCol ≤ w.col → w.row < v.span.endRow

theorem within_start (v : View) : Within v v.start where
  view_eq := rfl
  startCol_le := Nat.le_refl _
  col := Or.inl rfl
  row := Or.inl rfl
  row_lt hlt hle := absurd hle (Nat.not_le.2 hlt)

/-- The row that is left is in the span, so that the next one is no further than its end. -/
theorem Within.settled (h : Within v w) (hcols : v.span.startCol < v.span.endCol) : Within v w.settled := by
  obtain ⟨rfl, hstart, hcol, hrow, hlt⟩ := h
  unfold Cursor.settled
  by_cases hend : w.view.span.endCol ≤ w.col
  · rw [if_pos hend]
    exact ⟨rfl, Nat.le_refl _, Or.inl rfl, Or.inr (hlt hcols hend), fun _ hle => absurd hle (Nat.not_le.2 hcols)⟩
  · rw [if_neg hend]
    exact ⟨rfl, hstart, hcol, hrow, hlt⟩

/-- **A step keeps the view and does not count past the ends.** -/
theorem Within.next (h : Within v w) : Within v w.next.2 := by
  rcases next_cases w with ⟨-, hnext⟩ | ⟨hcols, -, hnext⟩ | ⟨hcols, hrows, hnext⟩
  · rwa [hnext]
  · rw [hnext]
    exact h.settled (h.view_eq ▸ hcols)
  · have hsettled := h.settled (h.view_eq ▸ hcols)
    have hcol := settled_col_lt hcols
    rw [h.view_eq] at hcol hrows
    rw [hnext]
    exact ⟨h.view_eq, Nat.le_succ_of_le hsettled.startCol_le, Or.inr hcol, hsettled.row, fun _ _ => hrows⟩

theorem within_after (v : View) (n : Nat) : Within v (v.start.after n) := by
  induction n with
  | zero => exact within_start v
  | succ n ih => exact ih.next

/-! ## What is still to come -/

/-- Past the last row nothing is to come. -/
theorem rest_of_endRow_le (h : w.view.span.endRow ≤ w.row) : w.rest = [] := by
  rw [rest, if_neg (Nat.not_lt.2 h), List.nil_append]
  exact Span.places_of_le (Nat.le_succ_of_le h)

/-- Without columns nothing is to come. -/
theorem rest_of_noColumns (hcols : w.view.span.endCol ≤ w.view.span.startCol) (h : w.view.span.startCol ≤ w.col) :
    w.rest = [] := by
  have hrow : w.view.span.rowPlaces w.row w.col = [] := by
    rw [Span.rowPlaces, between_of_le (Nat.le_trans hcols h), List.map_nil]
  rw [rest, hrow, ite_self, List.nil_append]
  exact Span.places_of_noColumns hcols

/-- **A step meets the first cell that is to come**, if there is one, and leaves the others. -/
theorem next_eq (h : Within v w) :
    w.next.1 = w.rest.head?.map (fun p => v.array.cell p.1 p.2) ∧ w.next.2.rest = w.rest.tail := by
  obtain ⟨rfl, hstart, -, -, -⟩ := h
  rcases next_cases w with ⟨hcols, hnext⟩ | ⟨-, hrows, hnext⟩ | ⟨hcols, hrows, hnext⟩
  · have hnone := rest_of_noColumns hcols hstart
    rw [hnext, hnone]
    exact ⟨rfl, rfl⟩
  · have hnone : w.settled.rest = [] := rest_of_endRow_le (by rwa [settled_view])
    rw [hnext, ← rest_settled, hnone]
    exact ⟨rfl, rfl⟩
  · have hcol : w.settled.col < w.settled.view.span.endCol := by
      rw [settled_view]
      exact settled_col_lt hcols
    have hfirst := rest_of_inside (by rwa [settled_view]) hcol
    rw [hnext, ← rest_settled, hfirst, settled_view]
    exact ⟨rfl, rfl⟩

theorem rest_after (v : View) (n : Nat) : (v.start.after n).rest = v.span.places.drop n := by
  induction n with
  | zero => exact rest_start v
  | succ n ih => rw [after, (next_eq (within_after v n)).2, ih, List.tail_drop]

end Cursor

variable {v : View}

/-- **Step `n` from the start meets cell `n`**, and past the last cell none. -/
theorem next_after (v : View) (n : Nat) : (v.start.after n).next.1 = v.cells[n]? := by
  rw [(Cursor.next_eq (Cursor.within_after v n)).1, Cursor.rest_after, List.head?_drop, cells, List.getElem?_map]

theorem length_cells (v : View) : v.cells.length = v.size := by
  rw [cells, List.length_map, Span.length_places, size]

theorem next_after_eq_none_iff (v : View) (n : Nat) : (v.start.after n).next.1 = none ↔ v.size ≤ n := by
  rw [next_after, List.getElem?_eq_none_iff, length_cells]

/-! ## Indices -/

/-- The indices of the cells among all cells of the variable. -/
def indices (v : View) : List Nat := v.span.places.map fun p => v.array.cellIndex p.1 p.2

/-- Each place of the view is one of the grid. -/
def Inside (v : View) : Prop :=
  ∀ p ∈ v.span.places, p.1 < v.array.layout.grid.1 ∧ p.2 < v.array.layout.grid.2

theorem cells_eq (v : View) : v.cells = v.indices.map v.array.cellAt := by
  rw [indices, List.map_map]
  rfl

/-- **No two cells of a view inside the grid have one index.** -/
theorem nodup_indices (h : v.Inside) : v.indices.Nodup := by
  refine v.span.nodup_places.map_on fun p hp q hq heq => ?_
  obtain ⟨hrow, hcol⟩ := Grid.index_inj (h p hp).2 (h q hq).2 heq
  exact Prod.ext hrow hcol

/-- The indices are those of cells of the variable. -/
theorem indices_lt (h : v.Inside) {i : Nat} (hi : i ∈ v.indices) : i < v.array.size := by
  obtain ⟨p, hp, rfl⟩ := List.mem_map.1 hi
  exact Grid.index_lt (h p hp).1 (h p hp).2

/-- **A view inside the grid has no more cells than the variable.** -/
theorem size_le (h : v.Inside) : v.size ≤ v.array.size := by
  have hsub : v.indices ⊆ List.range v.array.size := fun i hi => List.mem_range.2 (indices_lt h hi)
  have hle := (List.subperm_of_subset (nodup_indices h) hsub).length_le
  rwa [indices, List.length_map, Span.length_places, List.length_range] at hle

end View

end SolverClient
