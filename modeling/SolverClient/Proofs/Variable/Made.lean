import SolverClient.Proofs.Variable.Declaration

/-!
# The two ways to a variable

A variable is **made** (`Variable.Made`) by a declaration or by the reader of documents, which check different things in
different orders. Both make it coherent (`Variable.Made.coherent`). The name of a matrix therefore carries its shape
(`Variable.Made.ofText?_of_matrix`), and a matrix that is declared under that name gets it unchanged if it has the same
shape, and is refused if not (`Variable.invariant_of_made`).
-/

namespace SolverClient

/-- The variable was declared, with words for its rows and columns, or read from a document. -/
def Variable.Made (v : Variable) : Prop :=
  (v.layout.grid.1 < Word.bound64 ∧ v.layout.grid.2 < Word.bound64 ∧ ∃ d : Declaration, d.build = .ok v) ∨
    ∃ d : Fields, Variable.ofFields d = .ok v

namespace Variable

variable {v : Variable}

/-- **Both ways make a variable coherent.** -/
theorem Made.coherent (h : v.Made) : v.Coherent := by
  rcases h with ⟨hr, hc, d, hd⟩ | ⟨d, hd⟩
  · exact Declaration.coherent_of_build hd hr hc
  · exact coherent_of_ofFields hd

theorem Made.grid_lt (h : v.Made) : v.layout.grid.1 < Word.bound64 ∧ v.layout.grid.2 < Word.bound64 := by
  rcases h with ⟨hr, hc, -⟩ | ⟨d, hd⟩
  · exact ⟨hr, hc⟩
  · have hw := inWords_of_ofFields hd
    exact ⟨hw.rows, hw.cols⟩

/-- The name of a matrix has the mark and carries its shape. -/
theorem Made.ofText?_of_matrix {rows cols : Nat} {s : VariableStrategy} (h : v.Made)
    (hl : v.layout = .matrix rows cols s) :
    MatrixName.hasMark v.name = true ∧ ∃ base, MatrixName.ofText? v.name = some ⟨rows, cols, base⟩ := by
  obtain ⟨hr, hc⟩ := h.grid_lt
  rw [hl] at hr hc
  exact MatrixName.ofText?_of_identifier hr hc (h.coherent.identifier rows cols s hl)

/-- **What holds of a variable however it was made.** Its strategies are available for its kind, no array or matrix is
defined by an expression, and the name of a matrix has the mark and carries its shape. A matrix of any kind that is
declared under that name keeps it if it has that shape, and is refused if it has another one. -/
theorem invariant_of_made (h : v.Made) :
    v.valueStrategy.availableFor v.kind = true ∧
    (v.layout.isScalar = false → (∃ s, v.layout.strategy? = some s ∧ s.availableFor v.kind = true) ∧
      ∀ text, v.domain ≠ .expression text) ∧
    ∀ rows cols s, v.layout = .matrix rows cols s →
      MatrixName.hasMark v.name = true ∧ (∃ base, MatrixName.ofText? v.name = some ⟨rows, cols, base⟩) ∧
      (0 < rows → 0 < cols → ∀ kind, ∃ w, (Declaration.matrix kind v.name rows cols).build = .ok w ∧ w.name = v.name) ∧
      ∀ kind rows' cols', 0 < rows' → 0 < cols' → (rows', cols') ≠ (rows, cols) →
        (Declaration.matrix kind v.name rows' cols').build =
          .error (.request (.shapeMismatch v.name rows cols rows' cols')) := by
  have hv := h.coherent
  refine ⟨hv.valueStrategy, fun hscalar => ⟨?_, hv.noExpression hscalar⟩, fun rows cols s hl => ?_⟩
  · obtain ⟨s, hs⟩ := Layout.exists_strategy? hscalar
    exact ⟨s, hs, hv.variableStrategy s hs⟩
  obtain ⟨hmark, base, hname⟩ := h.ofText?_of_matrix hl
  have hne := MatrixName.ne_empty_of_hasMark hmark
  refine ⟨hmark, ⟨base, hname⟩, fun hr hc kind => ?_, fun kind rows' cols' hr hc hshape => ?_⟩
  · rw [Declaration.build_matrix hne hr hc, hv.identifier rows cols s hl]
    exact ⟨_, rfl, rfl⟩
  · rw [Declaration.build_matrix hne hr hc, MatrixName.identifier_of_ofText?_ne hmark hname hshape]
    rfl

/-- A matrix under a name whose counts have a plus sign and a leading zero. -/
def signedDocument : Fields :=
  [("name", .str "MATRIX$+2$03$grid"), ("type", .str "integer_array"), ("subtype", .str "matrix"), ("rows", .int 2),
    ("cols", .int 3), ("brancher_variable", .null)]

/-- The matrix of that document. -/
def signedMatrix : Variable :=
  ⟨"MATRIX$+2$03$grid", .integer, .matrix 2 3 .standard, .unrestricted, .standard, noOrder⟩

theorem ofFields_signedDocument : ofFields signedDocument = .ok signedMatrix := by rfl

theorem invariant_of_made_signedMatrix :
    signedMatrix.Made ∧ MatrixName.hasMark "MATRIX$+2$03$grid" = true ∧
    (∃ w, (Declaration.matrix .float "MATRIX$+2$03$grid" 2 3).build = .ok w ∧ w.name = "MATRIX$+2$03$grid") ∧
    (Declaration.matrix .float "MATRIX$+2$03$grid" 3 2).build =
      .error (.request (.shapeMismatch "MATRIX$+2$03$grid" 2 3 3 2)) := by
  have hmade : signedMatrix.Made := Or.inr ⟨signedDocument, ofFields_signedDocument⟩
  obtain ⟨-, -, hmatrix⟩ := invariant_of_made hmade
  obtain ⟨hmark, -, hkept, hrefused⟩ := hmatrix 2 3 .standard rfl
  exact ⟨hmade, hmark, hkept (by decide) (by decide) .float, hrefused .float 3 2 (by decide) (by decide) (by decide)⟩

end Variable

end SolverClient
