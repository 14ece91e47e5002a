import SolverClient.Proofs.Variable.Document
import SolverClient.Variable.Declaration

/-!
# Declared variables are coherent

A declaration is made into a variable iff its name is not empty, one domain at most was asked for, its strategies are
available, it has cells, and only a scalar is defined by an expression (`Declaration.build_eq_ok`). The variable is then
coherent (`Declaration.coherent_of_build`), and a matrix has a name that is read as its shape
(`Declaration.ofText?_of_build`).
-/

namespace SolverClient

/-- An array or a matrix has a way to pick the next cell. -/
theorem Layout.exists_strategy? {l : Layout} (h : l.isScalar = false) : ∃ s, l.strategy? = some s := by
  cases l with
  | scalar => cases h
  | array n s => exact ⟨s, rfl⟩
  | matrix rows cols s => exact ⟨s, rfl⟩

namespace Declaration

variable {d : Declaration} {v : Variable}

/-- What `build` asks of an array or a matrix. -/
def CellsAllowed (d : Declaration) : Prop :=
  ∀ s, d.layout.strategy? = some s → s.availableFor d.kind = true ∧ ∀ text, d.domain ≠ .expression text

/-- **When a declaration is made into a variable, and into which.** -/
theorem build_eq_ok : d.build = .ok v ↔
    d.name ≠ "" ∧ d.conflicting = false ∧ d.valueStrategy.availableFor d.kind = true ∧ d.CellsAllowed ∧
      ∃ name, d.identifier = .ok name ∧ ⟨name, d.kind, d.layout, d.domain, d.valueStrategy, d.order⟩ = v := by
  unfold build
  by_cases hn : d.name = ""
  · simp [hn]
  by_cases hc : d.conflicting = true
  · simp [hn, hc]
  by_cases hs : d.valueStrategy.availableFor d.kind = true
  · cases hi : d.identifier with
    | error e => simp [hn, hc, hs]
    | ok name =>
      cases hl : d.layout.strategy? with
      | none => simp [hn, hc, hs, CellsAllowed, hl]
      | some s =>
        by_cases ha : s.availableFor d.kind = true
        · cases hd : d.domain <;> simp [hn, hc, hs, CellsAllowed, hl, hd, ha]
        · cases hd : d.domain <;> simp [hn, hc, hs, CellsAllowed, hl, hd, ha]
  · simp [hn, hc, hs]

theorem layout_of_build (h : d.build = .ok v) : v.layout = d.layout := by
  obtain ⟨-, -, -, -, name, -, rfl⟩ := build_eq_ok.1 h
  rfl

/-- A declared variable has cells. -/
theorem grid_pos_of_build (h : d.build = .ok v) : 0 < v.layout.grid.1 ∧ 0 < v.layout.grid.2 := by
  obtain ⟨-, -, -, -, name, hi, rfl⟩ := build_eq_ok.1 h
  unfold identifier at hi
  cases hl : d.layout with
  | scalar => exact ⟨Nat.one_pos, Nat.one_pos⟩
  | array n s =>
    simp only [hl] at hi
    split at hi
    · cases hi
    · exact ⟨Nat.one_pos, by simp only [Layout.grid]; omega⟩
  | matrix rows cols s =>
    simp only [hl] at hi
    split at hi
    · cases hi
    · simp only [Layout.grid]; omega

/-- If the number of its cells is a word, so are those of its rows and columns. -/
theorem grid_lt_of_build (h : d.build = .ok v) (hsize : v.size < Word.bound64) :
    v.layout.grid.1 < Word.bound64 ∧ v.layout.grid.2 < Word.bound64 := by
  obtain ⟨hr, hc⟩ := grid_pos_of_build h
  simp only [Variable.size, Layout.size] at hsize
  constructor
  · exact Nat.lt_of_le_of_lt (Nat.le_mul_of_pos_right _ hc) hsize
  · exact Nat.lt_of_le_of_lt (Nat.le_mul_of_pos_left _ hr) hsize

/-- The name of a declared matrix carries its shape. -/
theorem identifier_idem {name : String} {rows cols : Nat} {s : VariableStrategy} (hi : d.identifier = .ok name)
    (hl : d.layout = .matrix rows cols s) (hr : rows < Word.bound64) (hc : cols < Word.bound64) :
    MatrixName.identifier name rows cols = .ok name := by
  unfold identifier at hi
  simp only [hl] at hi
  split at hi
  · cases hi
  · exact MatrixName.identifier_idem hr hc hi

/-- **Declared variables are coherent.** -/
theorem coherent_of_build (h : d.build = .ok v) (hr : v.layout.grid.1 < Word.bound64)
    (hc : v.layout.grid.2 < Word.bound64) : v.Coherent := by
  obtain ⟨-, -, hs, hcells, name, hi, rfl⟩ := build_eq_ok.1 h
  refine ⟨hs, fun s hl => (hcells s hl).1, ?_, ?_⟩
  · intro hscalar
    cases hl : d.layout.strategy? with
    | none =>
      simp only at hscalar
      cases hd : d.layout <;> simp [hd, Layout.isScalar, Layout.strategy?] at hscalar hl
    | some s => exact (hcells s hl).2
  · intro rows cols s hl
    simp only at hl hr hc
    rw [hl] at hr hc
    exact identifier_idem hi hl hr hc

theorem ofText?_of_build {rows cols : Nat} {s : VariableStrategy} (h : d.build = .ok v)
    (hl : v.layout = .matrix rows cols s) (hr : rows < Word.bound64) (hc : cols < Word.bound64) :
    ∃ base, MatrixName.ofText? v.name = some ⟨rows, cols, base⟩ := by
  obtain ⟨-, -, -, -, name, hi, rfl⟩ := build_eq_ok.1 h
  simp only at hl
  obtain ⟨-, base, ho⟩ := MatrixName.ofText?_of_identifier hr hc (identifier_idem hi hl hr hc)
  exact ⟨base, ho⟩

/-- A matrix with the standard settings is declared iff its name has an identifier for the shape. -/
theorem build_matrix {kind : ValueKind} {name : String} {rows cols : Nat} (hname : name ≠ "") (hr : 0 < rows)
    (hc : 0 < cols) : (matrix kind name rows cols).build =
      (MatrixName.identifier name rows cols).map fun name =>
        ⟨name, kind, .matrix rows cols .standard, .unrestricted, .standard, Variable.noOrder⟩ := by
  have hvalue : ValueStrategy.standard.availableFor kind = true := by cases kind <;> rfl
  have hvariable : VariableStrategy.standard.availableFor kind = true := by cases kind <;> rfl
  have hcells : ¬ (rows = 0 ∨ cols = 0) := by omega
  simp only [build, matrix, identifier, hname, hvalue, hcells, if_false]
  cases MatrixName.identifier name rows cols with
  | error e => rfl
  | ok name => simp [Except.map, Layout.strategy?, hvariable]

end Declaration

/-! ## Declared variables -/

/-- The integers of a declaration are words. -/
def Declaration.InWords (d : Declaration) : Prop := Word.isSigned d.order = true ∧ ∀ n ∈ d.domain.numbers, n.InWords

/-- The variable was declared, and its number of cells is a word. -/
def Variable.Declared (v : Variable) : Prop :=
  v.size < Word.bound64 ∧ ∃ d : Declaration, d.InWords ∧ d.build = .ok v

namespace Variable.Declared

variable {v : Variable}

theorem coherent (h : v.Declared) : v.Coherent := by
  obtain ⟨hsize, d, -, hbuild⟩ := h
  obtain ⟨hr, hc⟩ := Declaration.grid_lt_of_build hbuild hsize
  exact Declaration.coherent_of_build hbuild hr hc

theorem inWords (h : v.Declared) : v.InWords := by
  obtain ⟨hsize, d, hw, hbuild⟩ := h
  obtain ⟨hr, hc⟩ := Declaration.grid_lt_of_build hbuild hsize
  obtain ⟨-, -, -, -, name, -, rfl⟩ := Declaration.build_eq_ok.1 hbuild
  exact ⟨hw.1, hr, hc, hw.2⟩

end Variable.Declared

end SolverClient
