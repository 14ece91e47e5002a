import SolverClient.Proofs.Constraint.Build
import SolverClient.Proofs.Variable.Declaration
import SolverClient.Proofs.View

/-!
# Distinctness over a view

A constraint over a view is made iff the region of the view lies in the matrix (`Constraint.distinctView_eq_ok`). A view
has its last row and column in its region, its text and a document have the ends after them, and the size in a document
is that of a row or of a column. All of them speak of the same cells (`Constraint.Covers`): those that a walk over the
view meets. The constraint comes back from its document with the region of the view (`Constraint.distinctView_exact`).
-/

namespace SolverClient

namespace Constraint

section Views

variable {v : View} {c : Constraint} {rows cols : Nat} {strategy : VariableStrategy}

theorem distinctView_eq_ok_of_layout (hl : v.array.layout = .matrix rows cols strategy) :
    distinctView v = .ok c ↔ v.region.Inside rows cols ∧
      c = unnamed (.distinct v.array.name (v.region.selection rows cols)) := by
  rw [distinctView_eq_ok]
  constructor
  · rintro ⟨rows', cols', s, hl', h⟩
    cases hl.symm.trans hl'
    exact h
  · exact fun h => ⟨rows, cols, strategy, hl, h⟩

/-- The fields of a constraint stand for the cells that a walk over the view meets. In a row these come one after
another, in a column one in each row. In a slice they are those from the first offsets on and before the last ones,
which are also the numbers in the text of the view. -/
inductive Covers (rows cols : Nat) (v : View) (d : Fields) : Prop
  | row {index : Nat} (hregion : v.region = .row index) (hselection : d.get? "selection" = some (.str "row"))
      (hsize : d.get? "size" = some (.int v.size)) (hcols : v.size = cols) (hindex : d.get? "index" = some (.int index))
      (hwalk : v.Walks ((List.range v.size).map fun k => index * v.size + k))
  | column {index : Nat} (hregion : v.region = .column index) (hselection : d.get? "selection" = some (.str "col"))
      (hsize : d.get? "size" = some (.int v.size)) (hrows : v.size = rows) (hindex : d.get? "index" = some (.int index))
      (hwalk : v.Walks ((List.range v.size).map fun k => k * cols + index))
  | slice {size x₀ y₀ x₁ y₁ : Nat} (hselection : d.get? "selection" = some (.str "slice"))
      (hsize : d.get? "size" = some (.int size)) (hcols : size = cols)
      (hx₀ : d.get? "offset_start_x" = some (.int x₀)) (hy₀ : d.get? "offset_start_y" = some (.int y₀))
      (hx₁ : d.get? "offset_end_x" = some (.int x₁)) (hy₁ : d.get? "offset_end_y" = some (.int y₁))
      (hregion : ∃ lastRow lastCol, v.region = .slice x₀ y₀ lastRow lastCol ∧ x₁ = lastRow + 1 ∧ y₁ = lastCol + 1)
      (htext : v.text = v.array.name ++ View.index rows ++ View.index cols ++
        ("[s]" ++ View.index x₀ ++ View.index y₀ ++ View.index x₁ ++ View.index y₁))
      (hwalk : v.Walks ((between x₀ x₁).flatMap fun x => (between y₀ y₁).map fun y => x * size + y))

/-- **The fields of the selection of a view stand for the cells of the view.** -/
theorem covers_toFields (hl : v.array.layout = .matrix rows cols strategy) (name : Option String) :
    Covers rows cols v (toFields ⟨name, .distinct v.array.name (v.region.selection rows cols)⟩) := by
  obtain ⟨array, region⟩ := v
  simp only at hl ⊢
  cases region with
  | row r =>
    have hsize := View.size_row (v := ⟨array, .row r⟩) rfl
    have hwalk := View.walks_row (v := ⟨array, .row r⟩) rfl
    simp only [hl, Layout.grid] at hsize hwalk
    exact .row rfl rfl (by rw [hsize]; rfl) hsize rfl (by rwa [hsize])
  | column c =>
    have hsize := View.size_column (v := ⟨array, .column c⟩) rfl
    have hwalk := View.walks_column (v := ⟨array, .column c⟩) rfl
    simp only [hl, Layout.grid] at hsize hwalk
    exact .column rfl rfl (by rw [hsize]; rfl) hsize rfl (by rwa [hsize])
  | slice r₀ c₀ r₁ c₁ =>
    have hwalk := View.walks_slice (v := ⟨array, .slice r₀ c₀ r₁ c₁⟩) rfl
    simp only [hl, Layout.grid] at hwalk
    exact .slice rfl rfl rfl rfl rfl rfl rfl ⟨r₁, c₁, rfl, rfl, rfl⟩ (by simp only [View.text, hl]; rfl) hwalk

/-- **Distinctness over a view of a declared matrix covers just the cells of the view.** The constraint is made iff the
region lies in the matrix. Its fields then stand for the cells that a walk over the view meets, all their numbers are
words, and they are read back as the selection of the region, over any variables where the name is that of a matrix. -/
theorem distinctView_exact {declaration : Declaration} (hbuild : declaration.build = .ok v.array)
    (hl : v.array.layout = .matrix rows cols strategy) (hsize : rows * cols < Word.bound64) :
    ((∃ c, distinctView v = .ok c) ↔ v.region.Inside rows cols) ∧
    ∀ c, distinctView v = .ok c →
      Covers rows cols v c.toFields ∧ c.toFields.get? "v1" = some (.str v.array.name) ∧
      (v.region.selection rows cols).InWords ∧ (Json.obj c.toFields).WellFormed ∧
      ∀ vars, Variable.NamesMatrix vars v.array.name → ofFields vars c.toFields =
        .ok (unnamed (.distinct v.array.name (v.region.selection rows cols))) := by
  constructor
  · simp only [distinctView_eq_ok_of_layout hl, exists_and_left, exists_eq, and_true]
  · intro c hc
    obtain ⟨hinside, rfl⟩ := (distinctView_eq_ok_of_layout hl).1 hc
    obtain ⟨hr, hcols⟩ := Declaration.grid_lt_of_build hbuild (by rw [Variable.size, hl]; exact hsize)
    rw [hl] at hr hcols
    have hwords := hinside.inWords_selection hr hcols
    refine ⟨covers_toFields hl none, rfl, hwords, wellFormed_toFields hwords, fun vars hvars => ?_⟩
    exact ofFields_toFields ((Demand.resolvedIn_distinct_iff Region.selection_ne_whole).2 hvars) hwords trivial trivial

/-- A matrix of two rows and three columns. -/
def boardSample : Variable :=
  ⟨"MATRIX$2$3$board", .integer, .matrix 2 3 .standard, .unrestricted, .standard, Variable.noOrder⟩

/-- Its last two columns. -/
def sliceSample : View := ⟨boardSample, .slice 0 1 1 2⟩

theorem distinctView_exact_sliceSample : ∃ c, distinctView sliceSample = .ok c ∧ Covers 2 3 sliceSample c.toFields ∧
    ofFields [boardSample] c.toFields = .ok (unnamed (.distinct "MATRIX$2$3$board" (.slice 3 0 1 1 2))) := by
  have hbuild : (Declaration.matrix .integer "board" 2 3).build = .ok sliceSample.array := by rfl
  obtain ⟨hmade, hspec⟩ := distinctView_exact (v := sliceSample) hbuild rfl (by decide)
  obtain ⟨c, hc⟩ := hmade.2 ⟨⟨by decide, by decide⟩, by decide, by decide⟩
  obtain ⟨hcovers, -, -, -, hread⟩ := hspec c hc
  exact ⟨c, hc, hcovers, hread [boardSample] (Variable.namesMatrix_of_mem (by decide) (List.mem_singleton_self _) rfl)⟩

end Views

end Constraint

end SolverClient
