import Mathlib.Data.List.Basic
import SolverClient.View

/-!
# Walks over a view

A walk that stands before a place has yet to meet the places of that row from there on, and then those of the rows
after it (`View.Cursor.rest`). A step meets the first of them and leaves the others (`View.Cursor.next_spec`), and so a
walk from the start meets the places of the span, row by row (`View.walks_places`). The cells there have the indices of
a row, a column or a slice (`View.walks_row`, `View.walks_column`, `View.walks_slice`).
-/

namespace SolverClient

/-! ## Places of a span -/

section Places

variable {start stop : Nat} {s : Span}

theorem between_of_le (h : stop ≤ start) : between start stop = [] := by
  rw [between, Nat.sub_eq_zero_of_le h, List.range_zero, List.map_nil]

theorem between_of_lt (h : start < stop) : between start stop = start :: between (start + 1) stop := by
  obtain ⟨n, rfl⟩ := Nat.exists_eq_add_of_lt h
  have hlong : start + n + 1 - start = n + 1 := by omega
  have hshort : start + n + 1 - (start + 1) = n := by omega
  simp only [between, hlong, hshort, List.range_succ_eq_map, List.map_cons, List.map_map, Nat.add_zero]
  refine congrArg _ (List.map_congr_left fun i _ => ?_)
  simp only [Function.comp_apply]
  omega

@[simp] theorem between_succ (n : Nat) : between n (n + 1) = [n] := by
  rw [between_of_lt (Nat.lt_succ_self n), between_of_le (Nat.le_refl _)]

@[simp] theorem between_zero (n : Nat) : between 0 n = List.range n := by simp [between]

/-- The places of one row of a span. -/
def Span.rowPlaces (s : Span) (row col : Nat) : List (Nat × Nat) := (between col s.endCol).map fun c => (row, c)

theorem Span.places_of_le (h : s.endRow ≤ s.startRow) : s.places = [] := by
  rw [places, between_of_le h, List.flatMap_nil]

/-- The places of the first row, and those of the other rows. -/
theorem Span.places_of_lt (h : s.startRow < s.endRow) :
    s.places = s.rowPlaces s.startRow s.startCol ++ { s with startRow := s.startRow + 1 }.places := by
  rw [places, between_of_lt h, List.flatMap_cons]
  rfl

/-- A span without columns has no places. -/
theorem Span.places_of_noColumns (h : s.endCol ≤ s.startCol) : s.places = [] := by
  simp [places, between_of_le h]

end Places

namespace View

/-! ## One step -/

namespace Cursor

variable {w : Cursor}

/-- The places that are still to come. -/
def rest (w : Cursor) : List (Nat × Nat) :=
  (if w.row < w.view.span.endRow then w.view.span.rowPlaces w.row w.col else []) ++
    { w.view.span with startRow := w.row + 1 }.places

theorem rest_start (v : View) : v.start.rest = v.span.places := by
  by_cases h : v.span.startRow < v.span.endRow
  · rw [Span.places_of_lt h]
    exact congrArg (· ++ _) (if_pos h)
  · have hrows := Nat.not_lt.1 h
    have hlater : ({ v.span with startRow := v.span.startRow + 1 } : Span).places = [] :=
      Span.places_of_le (Nat.le_succ_of_le hrows)
    rw [Span.places_of_le hrows]
    exact (congrArg (_ ++ ·) hlater).trans ((List.append_nil _).trans (if_neg h))

/-- Past the last column the next row is to come. -/
theorem rest_of_endCol_le (h : w.view.span.endCol ≤ w.col) :
    w.rest = (⟨w.view, w.row + 1, w.view.span.startCol⟩ : Cursor).rest := by
  have hnone : w.view.span.rowPlaces w.row w.col = [] := by rw [Span.rowPlaces, between_of_le h, List.map_nil]
  simp only [rest, hnone, ite_self, List.nil_append]
  by_cases hr : w.row + 1 < w.view.span.endRow
  · rw [Span.places_of_lt (by exact hr), if_pos hr]
    rfl
  · rw [Span.places_of_le (by simp only; omega), if_neg hr, Span.places_of_le (by simp only; omega)]
    rfl

/-- Inside the span the place before which the walk stands comes first. -/
theorem rest_of_inside (hr : w.row < w.view.span.endRow) (hc : w.col < w.view.span.endCol) :
    w.rest = (w.row, w.col) :: (⟨w.view, w.row, w.col + 1⟩ : Cursor).rest := by
  simp only [rest, hr, if_true, Span.rowPlaces, between_of_lt hc, List.map_cons, List.cons_append]

/-- **A step meets the first of the places to come** and leaves the others, or there is none to come. -/
theorem next_spec (h : w.view.span.startCol ≤ w.col) :
    (w.rest = [] ∧ w.next.1 = none) ∨ ∃ row col w', w.rest = (row, col) :: w'.rest ∧
      w.next = (some (w.view.array.cell row col), w') ∧ w'.view = w.view ∧ w.view.span.startCol ≤ w'.col := by
  unfold next
  by_cases hcols : w.view.span.endCol ≤ w.view.span.startCol
  · refine Or.inl ⟨?_, by simp [hcols]⟩
    rw [rest_of_endCol_le (Nat.le_trans hcols h), rest, Span.places_of_noColumns (by exact hcols), Span.rowPlaces,
      between_of_le hcols, List.map_nil, ite_self, List.append_nil]
  -- the walk goes on in the next row, if it has to
  obtain ⟨u, hu, hrest, hview, hcol, hlt⟩ : ∃ u : Cursor,
      (if w.view.span.endCol ≤ w.col then ⟨w.view, w.row + 1, w.view.span.startCol⟩ else w) = u ∧ w.rest = u.rest ∧
        u.view = w.view ∧ w.view.span.startCol ≤ u.col ∧ u.col < w.view.span.endCol := by
    by_cases hend : w.view.span.endCol ≤ w.col
    · exact ⟨_, if_pos hend, rest_of_endCol_le hend, rfl, Nat.le_refl _, by simp only; omega⟩
    · exact ⟨w, if_neg hend, rfl, rfl, h, by omega⟩
  simp only [hcols, if_false, hu]
  rw [hrest]
  by_cases hrow : w.view.span.endRow ≤ u.row
  · refine Or.inl ⟨?_, by simp [hrow]⟩
    rw [rest, hview, if_neg (Nat.not_lt.2 hrow), Span.places_of_le (by simp only; omega)]
    rfl
  · refine Or.inr ⟨u.row, u.col, ⟨w.view, u.row, u.col + 1⟩, ?_, by simp [hrow, hview], rfl, by simp only; omega⟩
    rw [rest_of_inside (by rw [hview]; omega) (by rw [hview]; omega), hview]

/-- **A walk meets the places to come**, one with each step. -/
theorem collect_eq (limit : Nat) (h : w.view.span.startCol ≤ w.col) :
    w.collect limit = (w.rest.map fun p => w.view.array.cell p.1 p.2).take limit := by
  induction limit generalizing w with
  | zero => rfl
  | succ limit ih =>
    unfold collect
    rcases next_spec h with ⟨hrest, hnext⟩ | ⟨row, col, w', hrest, hnext, hview, hcol⟩
    · cases hn : w.next with
      | mk cell w' =>
        rw [hn] at hnext
        cases hnext
        rw [hrest]
        rfl
    · rw [hnext, hrest, ← hview]
      rw [← hview] at hcol
      simp only [List.map_cons, List.take_succ_cons, ih hcol]

end Cursor

/-! ## Whole walks -/

variable {v : View}

/-- A walk over the view meets the cells with the indices, in that order, one with each step, and no other cell. -/
def Walks (v : View) (indices : List Nat) : Prop :=
  ∀ limit, v.start.collect limit = (indices.map v.array.cellAt).take limit

/-- **A walk meets the places of the view, row by row.** -/
theorem walks_places (v : View) : v.Walks (v.span.places.map fun p => p.1 * v.array.layout.grid.2 + p.2) := by
  intro limit
  rw [Cursor.collect_eq limit (Nat.le_refl _), Cursor.rest_start, List.map_map]
  rfl

/-- A row has a cell in each column. -/
theorem size_row {row : Nat} (h : v.region = .row row) : v.size = v.array.layout.grid.2 := by
  simp [size, span, h, Region.span, Span.size]

/-- A column has a cell in each row. -/
theorem size_column {col : Nat} (h : v.region = .column col) : v.size = v.array.layout.grid.1 := by
  simp [size, span, h, Region.span, Span.size]

theorem walks_row {row : Nat} (h : v.region = .row row) :
    v.Walks ((List.range v.array.layout.grid.2).map fun k => row * v.array.layout.grid.2 + k) := by
  have hwalk := walks_places v
  simpa [span, h, Region.span, Span.places, Function.comp_def] using hwalk

theorem walks_column {col : Nat} (h : v.region = .column col) :
    v.Walks ((List.range v.array.layout.grid.1).map fun k => k * v.array.layout.grid.2 + col) := by
  have hwalk := walks_places v
  simpa [span, h, Region.span, Span.places, Function.comp_def, ← List.map_eq_flatMap] using hwalk

theorem walks_slice {r₀ c₀ r₁ c₁ : Nat} (h : v.region = .slice r₀ c₀ r₁ c₁) :
    v.Walks ((between r₀ (r₁ + 1)).flatMap fun x =>
      (between c₀ (c₁ + 1)).map fun y => x * v.array.layout.grid.2 + y) := by
  have hwalk := walks_places v
  simpa [span, h, Region.span, Span.places, Function.comp_def, List.map_flatMap] using hwalk

end View

end SolverClient
