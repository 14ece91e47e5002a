import SolverClient.Proofs.Variable.InWords
import SolverClient.Proofs.View.Steps
import SolverClient.View.InWords

/-!
# When the counts of a walk are words

A view is **in words** (`View.InWords`) if the ends of its span and the indices of its cells are words. Then each step of
a walk comes to what it comes to without bounds (`View.Cursor.nextInWords?_eq`), as no step counts past the ends of the
span and the place that it stands before is one of the view. So a walk with counts in words meets the cells of the view,
row by row, and ends (`View.walk_exact`). The size of the view is a product, which need not be a word even so
(`View.sizeInWords?_eq`).
-/

namespace SolverClient.View

/-- The ends of the span and the indices of the cells are words. -/
structure InWords (v : View) : Prop where
  endRow : v.span.endRow < Word.bound64
  endCol : v.span.endCol < Word.bound64
  index : ∀ i ∈ v.indices, i < Word.bound64

variable {v : View}

/-! ## The span and the size -/

theorem spanInWords?_eq (h : v.InWords) : v.spanInWords? = some v.span := by
  obtain ⟨hrow, hcol, -⟩ := h
  rw [spanInWords?]
  rw [span] at hrow hcol ⊢
  cases hr : v.region with
  | row r =>
    rw [hr] at hrow
    rw [Region.spanInWords?, Word.add?_of_lt hrow]
    rfl
  | column c =>
    rw [hr] at hcol
    rw [Region.spanInWords?, Word.add?_of_lt hcol]
    rfl
  | slice r0 c0 r1 c1 =>
    rw [hr] at hrow hcol
    rw [Region.spanInWords?, Word.add?_of_lt hrow, Word.add?_of_lt hcol]
    rfl

theorem startInWords?_eq (h : v.InWords) : v.startInWords? = some v.start := by
  rw [startInWords?, spanInWords?_eq h]
  rfl

/-- **The cells are counted if their number is a word.** -/
theorem sizeInWords?_eq (h : v.InWords) : v.sizeInWords? = Word.checked? v.size := by
  rw [sizeInWords?, spanInWords?_eq h]
  rfl

/-! ## One step -/

namespace Cursor

variable {w : Cursor}

/-- Past the last column a walk in the span has another row to count, which is not past the end. -/
theorem settleInWords?_eq (h : v.InWords) (hw : Within v w) (hcols : v.span.startCol < v.span.endCol) :
    w.settleInWords? = some w.settled := by
  obtain ⟨rfl, -, -, -, hlt⟩ := hw
  unfold settleInWords? settled
  split
  · have hrow : w.row + 1 < Word.bound64 := Nat.lt_of_le_of_lt (hlt hcols ‹_›) h.endRow
    rw [Word.add?_of_lt hrow]
    rfl
  · rfl

/-- **A step comes to what it comes to without bounds**, if the place that comes next is one of the view. -/
theorem nextInWords?_eq (h : v.InWords) (hw : Within v w) (hrest : ∀ p ∈ w.rest, p ∈ v.span.places) :
    w.nextInWords? = some w.next := by
  obtain rfl := hw.view_eq
  rcases next_cases w with ⟨hcols, hnext⟩ | ⟨hcols, hrows, hnext⟩ | ⟨hcols, hrows, hnext⟩
  · rw [nextInWords?, if_pos hcols, hnext]
  · rw [nextInWords?, if_neg (Nat.not_le.2 hcols), settleInWords?_eq h hw hcols, hnext]
    simp [hrows]
  · -- the place before which the walk stands once it is settled is the first that is to come
    have hcol := settled_col_lt hcols
    have hfirst := rest_of_inside (w := w.settled) (by rwa [settled_view]) (by rwa [settled_view])
    rw [rest_settled] at hfirst
    have hplace := hrest (w.settled.row, w.settled.col) (by rw [hfirst]; exact List.mem_cons_self)
    have hcell := Variable.cellInWords?_eq_some_iff.2 (h.index _ (List.mem_map_of_mem hplace))
    have hnextCol : w.settled.col + 1 < Word.bound64 := Nat.lt_of_le_of_lt hcol h.endCol
    rw [nextInWords?, if_neg (Nat.not_le.2 hcols), settleInWords?_eq h hw hcols, hnext]
    simp [Nat.not_le.2 hrows, hcell, Word.add?_of_lt hnextCol]

/-- The walk after a number of steps. -/
def afterInWords? (w : Cursor) : Nat → Option Cursor
  | 0 => some w
  | n + 1 => (w.afterInWords? n).bind fun w => w.nextInWords?.map Prod.snd

theorem nextInWords?_after (h : v.InWords) (n : Nat) : (v.start.after n).nextInWords? = some (v.start.after n).next := by
  refine nextInWords?_eq h (within_after v n) fun p hp => ?_
  rw [rest_after] at hp
  exact List.mem_of_mem_drop hp

/-- **So does any number of steps.** -/
theorem afterInWords?_eq (h : v.InWords) (n : Nat) : v.start.afterInWords? n = some (v.start.after n) := by
  induction n with
  | zero => rfl
  | succ n ih =>
    rw [afterInWords?, ih, Option.bind_some, nextInWords?_after h n]
    rfl

/-- **A walk meets the cells that are still to come**, up to a limit. -/
theorem collectInWords?_after (h : v.InWords) (limit n : Nat) :
    (v.start.after n).collectInWords? limit = some ((v.cells.drop n).take limit) := by
  induction limit generalizing n with
  | zero => rfl
  | succ limit ih =>
    have hcell := next_after v n
    have hlater := ih (n + 1)
    rw [after] at hlater
    rw [collectInWords?, nextInWords?_after h n]
    cases hnext : (v.start.after n).next with
    | mk cell w =>
      rw [hnext] at hcell hlater
      cases cell with
      | none =>
        have hover := List.getElem?_eq_none_iff.1 hcell.symm
        rw [List.drop_eq_nil_of_le hover, List.take_nil]
      | some cell =>
        obtain ⟨hlt, hget⟩ := List.getElem?_eq_some_iff.1 hcell.symm
        rw [List.drop_eq_getElem_cons hlt, List.take_succ_cons, hget]
        exact congrArg (Option.map (cell :: ·)) hlater

end Cursor

/-! ## The whole walk -/

/-- **A walk over any view is exact, ends and can be started again.** The cells of a view are those in the rows and
columns of its span, row by row, where a span that ends before it starts has none. If the ends of the span and the indices
of the cells are words, step `n` of a walk meets cell `n`, every step after the last cell meets none, and the view stays
what it is, so that a walk over it can be started again; the number of cells is counted iff it is a word as well. Inside
the grid of the variable no index comes twice, each is less than the number of cells, and so there are no more than
that. -/
theorem walk_exact (v : View) :
    v.cells.length = (v.span.endRow - v.span.startRow) * (v.span.endCol - v.span.startCol) ∧
    (∀ r c, r < v.span.endRow - v.span.startRow → c < v.span.endCol - v.span.startCol →
      v.cells[r * (v.span.endCol - v.span.startCol) + c]? =
        some (v.array.cell (v.span.startRow + r) (v.span.startCol + c))) ∧
    (v.InWords → v.startInWords? = some v.start ∧
      (∀ n, ∃ w, v.start.afterInWords? n = some w ∧ w.view = v ∧ w.nextInWords?.map Prod.fst = some v.cells[n]?) ∧
      (∀ limit, v.start.collectInWords? limit = some (v.cells.take limit)) ∧
      (v.cells.length < Word.bound64 → v.sizeInWords? = some v.cells.length) ∧
      (Word.bound64 ≤ v.cells.length → v.sizeInWords? = none)) ∧
    v.cells = v.indices.map v.array.cellAt ∧
    (v.Inside → v.indices.Nodup ∧ (∀ i ∈ v.indices, i < v.array.size) ∧ v.cells.length ≤ v.array.size) := by
  refine ⟨v.length_cells, fun r c hr hc => ?_, fun h => ⟨startInWords?_eq h, fun n => ?_, fun limit => ?_, fun hsize => ?_,
    fun hsize => ?_⟩, cells_eq v, fun h => ⟨nodup_indices h, fun i hi => indices_lt h hi, ?_⟩⟩
  · rw [cells, List.getElem?_map, Span.getElem?_places hr hc]
    rfl
  · refine ⟨_, Cursor.afterInWords?_eq h n, (Cursor.within_after v n).view_eq, ?_⟩
    rw [Cursor.nextInWords?_after h n, Option.map_some, next_after]
  · exact Cursor.collectInWords?_after h limit 0
  · rw [length_cells] at hsize ⊢
    rw [sizeInWords?_eq h, Word.checked?_of_lt hsize]
  · rw [length_cells] at hsize
    rw [sizeInWords?_eq h, Word.checked?_of_le hsize]
  · rw [length_cells]
    exact size_le h

/-- The right two columns of a matrix of two rows and three columns. -/
def rightColumns : View := ⟨⟨"m", .integer, .matrix 2 3 .standard, .unrestricted, .random, -1⟩, .slice 0 1 1 2⟩

/-- The last cell of the right two columns is met by the fourth step, and the next step meets none. -/
theorem walk_exact_rightColumns :
    rightColumns.InWords ∧ rightColumns.Inside ∧ rightColumns.indices = [1, 2, 4, 5] ∧
    (∃ w, rightColumns.start.afterInWords? 3 = some w ∧
      w.nextInWords?.map Prod.fst = some (some (rightColumns.array.cell 1 2))) ∧
    (∃ w, rightColumns.start.afterInWords? 4 = some w ∧ w.nextInWords?.map Prod.fst = some none) ∧
    rightColumns.sizeInWords? = some 4 ∧ rightColumns.indices.Nodup := by
  have hwords : rightColumns.InWords := ⟨by decide, by decide, by decide⟩
  have hinside : rightColumns.Inside := by
    intro p hp
    obtain ⟨⟨-, hrow⟩, -, hcol⟩ := Span.mem_places.1 hp
    exact ⟨hrow, hcol⟩
  obtain ⟨hlength, hplace, hwalk, -, hindices⟩ := walk_exact rightColumns
  obtain ⟨-, hstep, -, hsize, -⟩ := hwalk hwords
  obtain ⟨last, hlast, -, hmeets⟩ := hstep 3
  obtain ⟨past, hpast, -, hnone⟩ := hstep 4
  have hcell : rightColumns.cells[3]? = some (rightColumns.array.cell 1 2) := hplace 1 1 (by decide) (by decide)
  have hnoCell : rightColumns.cells[4]? = none := List.getElem?_eq_none (Nat.le_of_eq hlength)
  rw [hcell] at hmeets
  rw [hnoCell] at hnone
  rw [hlength] at hsize
  exact ⟨hwords, hinside, by decide, ⟨last, hlast, hmeets⟩, ⟨past, hpast, hnone⟩, hsize (by decide),
    (hindices hinside).1⟩

/-- An array of one cell. -/
def singleCell : Variable := ⟨"a", .integer, .array 1 .standard, .unrestricted, .standard, Variable.noOrder⟩

/-- A slice of it with more cells than words can count. -/
def wideSlice : View := ⟨singleCell, .slice 0 0 4294967296 4294967296⟩

/-- **Ends and indices that are words do not make a word of cells.** -/
theorem size_fails_of_wideSlice :
    (Declaration.array .integer "a" 1).build = .ok singleCell ∧ wideSlice.InWords ∧
    (∀ i ∈ wideSlice.indices, i ≤ 2 * 4294967296) ∧ wideSlice.span = ⟨0, 0, 4294967297, 4294967297⟩ ∧
    wideSlice.sizeInWords? = none := by
  have hindex : ∀ i ∈ wideSlice.indices, i ≤ 2 * 4294967296 := by
    intro i hi
    obtain ⟨⟨r, c⟩, hp, rfl⟩ := List.mem_map.1 hi
    obtain ⟨⟨-, hr⟩, -, hc⟩ := Span.mem_places.1 hp
    change r < 4294967297 at hr
    change c < 4294967297 at hc
    change r * 1 + c ≤ 2 * 4294967296
    omega
  refine ⟨rfl, ⟨by decide, by decide, fun i hi => Nat.lt_of_le_of_lt (hindex i hi) (by decide)⟩, hindex, rfl, rfl⟩

end SolverClient.View
