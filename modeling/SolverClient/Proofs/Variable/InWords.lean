import SolverClient.Proofs.Variable.Made
import SolverClient.Proofs.Word
import SolverClient.Variable.InWords

/-!
# When the counts of a variable are words

A variable has words for its rows and its columns, however it was made, but a matrix need not have one for the number of
its cells: both ways to a variable accept rows and columns of any length (`Variable.made_of_words`). The number of
cells, whether there are any, and the document come out as without bounds if the number of cells is a word, and else not
at all (`Variable.sizeInWords?_eq`, `Variable.toFieldsInWords?_eq`); a cell is named if its index is a word
(`Variable.cellInWords?_eq`). Together this is `Variable.countsInWords_exact`.
-/

namespace SolverClient.Variable

variable {v : Variable} {rows cols : Nat}

/-! ## One count -/

/-- Only a matrix has a number of cells that is not a count of the variable itself. -/
theorem size_lt_of_not_isMatrix (hcols : v.layout.grid.2 < Word.bound64) (h : v.layout.isMatrix = false) :
    v.size < Word.bound64 := by
  rw [size, Layout.size]
  cases hl : v.layout with
  | scalar => decide
  | array n s =>
    rw [hl] at hcols
    rw [Layout.grid, Nat.one_mul]
    exact hcols
  | matrix rows cols s =>
    rw [hl] at h
    cases h

/-- **The cells are counted if their number is a word.** -/
theorem sizeInWords?_eq (hcols : v.layout.grid.2 < Word.bound64) : v.sizeInWords? = Word.checked? v.size := by
  cases hl : v.layout with
  | scalar =>
    simp only [sizeInWords?, size, Layout.size, hl]
    rfl
  | array n s =>
    rw [hl] at hcols
    simp only [sizeInWords?, size, Layout.size, Layout.grid, hl, Nat.one_mul]
    exact (Word.checked?_of_lt hcols).symm
  | matrix rows cols s => simp only [sizeInWords?, size, Layout.size, Layout.grid, hl, Word.mul?]

/-- The variable is no matrix, or one of which the number of cells is a word. -/
def Counted (v : Variable) : Prop := v.layout.isMatrix = true → v.size < Word.bound64

theorem toFieldsInWords?_of_counted (h : v.Counted) : v.toFieldsInWords? = some v.toFields := by
  cases hl : v.layout with
  | scalar => simp [toFieldsInWords?, toFields, hl, Layout.strategy?]
  | array n s => simp [toFieldsInWords?, toFields, sizeInWords?, size, Layout.size, Layout.grid, hl, Layout.strategy?]
  | matrix rows cols s =>
    have hsize := h (by rw [hl]; rfl)
    rw [size, hl, Layout.size, Layout.grid] at hsize
    simp [toFieldsInWords?, toFields, sizeInWords?, size, Layout.size, Layout.grid, hl, Layout.strategy?,
      Word.mul?_of_lt hsize]

/-- **A matrix of which the cells cannot be counted cannot be written.** -/
theorem toFieldsInWords?_of_not_counted (h : ¬ v.Counted) : v.toFieldsInWords? = none := by
  obtain ⟨hmatrix, hsize⟩ := Classical.not_imp.1 h
  cases hl : v.layout with
  | matrix rows cols s =>
    have hle : Word.bound64 ≤ rows * cols := by simpa [size, Layout.size, Layout.grid, hl] using hsize
    simp [toFieldsInWords?, sizeInWords?, hl, Layout.strategy?, Word.mul?_of_le hle]
  | _ =>
    rw [hl] at hmatrix
    cases hmatrix

/-- **The document is written if the number of cells is a word**, which that of a scalar is. -/
theorem toFieldsInWords?_eq (hcols : v.layout.grid.2 < Word.bound64) :
    v.toFieldsInWords? = (Word.checked? v.size).map fun _ => v.toFields := by
  by_cases hsize : v.size < Word.bound64
  · rw [toFieldsInWords?_of_counted fun _ => hsize, Word.checked?_of_lt hsize]
    rfl
  · have hcounted : ¬ v.Counted := fun h => hsize <| by
      cases hmatrix : v.layout.isMatrix with
      | false => exact size_lt_of_not_isMatrix hcols hmatrix
      | true => exact h hmatrix
    rw [toFieldsInWords?_of_not_counted hcounted, Word.checked?_of_le (Nat.not_lt.1 hsize)]
    rfl

/-- **A cell is named if its index is a word.** -/
theorem cellInWords?_eq (v : Variable) (row col : Nat) :
    v.cellInWords? row col = (Word.checked? (v.cellIndex row col)).map v.cellAt := by
  rw [cellIndex, ← Word.mul?_bind_add?, Option.map_bind]
  simp only [cellInWords?, Function.comp_def, Option.map_eq_bind]
  rfl

theorem cellInWords?_eq_some_iff {row col : Nat} :
    v.cellInWords? row col = some (v.cell row col) ↔ v.cellIndex row col < Word.bound64 := by
  rw [cellInWords?_eq]
  by_cases h : v.cellIndex row col < Word.bound64
  · simp only [Word.checked?_of_lt h, Option.map_some, h, cell]
  · simp [Word.checked?_of_le (Nat.not_lt.1 h), h]

/-- All cells can be named even if there is one cell too many to be counted. -/
theorem forall_cellInWords?_iff :
    (∀ r c, r < v.layout.grid.1 → c < v.layout.grid.2 → v.cellInWords? r c = some (v.cell r c)) ↔
      v.size ≤ Word.bound64 := by
  simp only [cellInWords?_eq_some_iff]
  exact Grid.forall_index_lt_iff

theorem get?_toFields_size (h : v.layout.isScalar = false) : v.toFields.get? "length" = some (.int v.size) := by
  obtain ⟨s, hs⟩ := Layout.exists_strategy? h
  simp [toFields, hs]

/-! ## Any number of cells -/

/-- A matrix with the standard settings. -/
def standardMatrix (kind : ValueKind) (name : String) (rows cols : Nat) : Variable :=
  ⟨MatrixName.text ⟨rows, cols, name⟩, kind, .matrix rows cols .standard, .unrestricted, .standard, noOrder⟩

/-- The fields that the document of a matrix cannot do without. -/
def neededFields (kind : ValueKind) (name : String) (rows cols : Nat) : Fields :=
  [("name", .str name), ("type", .str (kind.tag ++ "_array")), ("subtype", .str "matrix"), ("rows", .int rows),
    ("cols", .int cols)]

/-- **A matrix of any rows and columns is made, both ways.** -/
theorem made_of_words {kind : ValueKind} {name : String} (hname : name ≠ "") (hmark : MatrixName.hasMark name = false)
    (hr : 0 < rows) (hc : 0 < cols) (hrows : rows < Word.bound64) (hcols : cols < Word.bound64) :
    (Declaration.matrix kind name rows cols).build = .ok (standardMatrix kind name rows cols) ∧
      ofFields (neededFields kind name rows cols) = .ok (standardMatrix kind name rows cols) := by
  have hidentifier : MatrixName.identifier name rows cols = .ok (MatrixName.text ⟨rows, cols, name⟩) :=
    MatrixName.identifier_eq_ok.2 (Or.inl ⟨hmark, rfl⟩)
  constructor
  · rw [Declaration.build_matrix hname hr hc, hidentifier]
    rfl
  · have hcells : DescribesCells (neededFields kind name rows cols) name kind (MatrixName.text ⟨rows, cols, name⟩)
        (.matrix rows cols .standard) :=
      .matrix (Or.inr ⟨Or.inl rfl, rfl⟩) (by cases kind <;> rfl) rfl rfl hrows rfl hcols (Or.inl ⟨hmark, rfl⟩)
    exact ofFields_of_describes
      { type := ⟨_, rfl, ofTypeTag_eq_ok.1 (ofTypeTag_typeTag (standardMatrix kind name rows cols))⟩
        valueStrategy := Or.inr ⟨Or.inl rfl, rfl⟩
        available := by cases kind <;> rfl
        order := Or.inr ⟨Or.inl rfl, rfl⟩
        signed := show Word.isSigned noOrder = true by decide
        domain := .unrestricted (Or.inl rfl) (Or.inl rfl) (Or.inl rfl) (Or.inl rfl)
        noExpression := fun _ => nofun
        layout := ⟨name, rfl, Or.inr hcells⟩ }

/-! ## All counts -/

/-- **When the counts of a variable are words**, however it was made. Its rows and columns are. The number of its cells
is one unless it is a matrix. If it is one, the cells can be counted, which also says whether there are any, and the
document can be written, with that number as the length of an array or a matrix; if not, none of this comes to anything.
Each cell in a row and a column of the variable can be named iff there are no more cells than words. -/
theorem countsInWords_exact (h : v.Made) :
    (v.layout.grid.1 < Word.bound64 ∧ v.layout.grid.2 < Word.bound64) ∧
    (v.layout.isMatrix = false → v.size < Word.bound64) ∧
    (v.size < Word.bound64 → v.sizeInWords? = some v.size ∧ v.isEmptyInWords? = some v.isEmpty ∧
      v.toFieldsInWords? = some v.toFields) ∧
    (Word.bound64 ≤ v.size → v.sizeInWords? = none ∧ v.isEmptyInWords? = none ∧ v.toFieldsInWords? = none) ∧
    (v.layout.isScalar = false → v.toFields.get? "length" = some (.int v.size)) ∧
    ((∀ r c, r < v.layout.grid.1 → c < v.layout.grid.2 → v.cellInWords? r c = some (v.cell r c)) ↔
      v.size ≤ Word.bound64) := by
  obtain ⟨hrows, hcols⟩ := h.grid_lt
  refine ⟨⟨hrows, hcols⟩, size_lt_of_not_isMatrix hcols, fun hsize => ?_, fun hsize => ?_, get?_toFields_size,
    forall_cellInWords?_iff⟩
  · rw [isEmptyInWords?, toFieldsInWords?_eq hcols, sizeInWords?_eq hcols, Word.checked?_of_lt hsize]
    exact ⟨rfl, rfl, rfl⟩
  · rw [isEmptyInWords?, toFieldsInWords?_eq hcols, sizeInWords?_eq hcols, Word.checked?_of_le hsize]
    exact ⟨rfl, rfl, rfl⟩

/-- A matrix with as many rows as columns and one cell more than words can count. -/
def squareMatrix : Variable := standardMatrix .integer "m" 4294967296 4294967296

/-- It is declared, and read from a document. -/
theorem made_squareMatrix : (Declaration.matrix .integer "m" 4294967296 4294967296).build = .ok squareMatrix ∧
    ofFields (neededFields .integer "m" 4294967296 4294967296) = .ok squareMatrix :=
  made_of_words (by decide) (by decide) (by decide) (by decide) (by decide) (by decide)

/-- Its cells cannot be counted, yet each one can be named. -/
theorem countsInWords_exact_squareMatrix :
    squareMatrix.Made ∧ squareMatrix.sizeInWords? = none ∧ squareMatrix.toFieldsInWords? = none ∧
    squareMatrix.cellInWords? 4294967295 4294967295 = some (squareMatrix.cell 4294967295 4294967295) := by
  have hmade : squareMatrix.Made := Or.inr ⟨_, made_squareMatrix.2⟩
  obtain ⟨-, -, -, hnone, -, hcells⟩ := countsInWords_exact hmade
  obtain ⟨hcount, -, hfields⟩ := hnone (by decide)
  exact ⟨hmade, hcount, hfields, hcells.2 (by decide) _ _ (by decide) (by decide)⟩

/-- **Rows and columns that are words do not make a word of cells**: both ways accept this matrix, whose cells cannot be
counted. -/
theorem size_lt_fails_of_squareMatrix :
    squareMatrix.name = "MATRIX$4294967296$4294967296$m" ∧
    (Declaration.matrix .integer "m" 4294967296 4294967296).build = .ok squareMatrix ∧
    ofFields (neededFields .integer "m" 4294967296 4294967296) = .ok squareMatrix ∧
    ¬ squareMatrix.size < Word.bound64 ∧ squareMatrix.sizeInWords? = none ∧ squareMatrix.isEmptyInWords? = none ∧
    squareMatrix.toFieldsInWords? = none := by
  obtain ⟨hbuild, hread⟩ := made_squareMatrix
  have hle : Word.bound64 ≤ squareMatrix.size := by decide
  exact ⟨by decide, hbuild, hread, Nat.not_lt.2 hle, rfl, rfl, rfl⟩

end SolverClient.Variable
