import SolverClient.Proofs.Model.Document

/-!
# Reading puts a model in a normal form

A document may leave things out, say null instead, spell a search in any case and give a matrix by its base name. What
is read from it is written out in full, and reading that gives the same model again (`Model.ofFields_normalForm`): once
read, a model does not change any more.
-/

namespace SolverClient

/-- Only a matrix can have more cells than a word counts. -/
theorem Variable.size_lt {v : Variable} (hw : v.InWords)
    (hmatrix : v.layout.isMatrix = true → v.size < Word.bound64) : v.size < Word.bound64 := by
  have hcols := hw.cols
  cases hl : v.layout with
  | scalar => simp [size, hl, Layout.size, Layout.grid, Word.bound64]
  | array n s =>
    rw [hl] at hcols
    simpa [size, hl, Layout.size, Layout.grid] using hcols
  | matrix rows cols s => exact hmatrix (by rw [hl]; rfl)

namespace Model

/-- **A model that was read from any document is read back from its own.** The document without the search gives the
model without it, which has the same document; the final document, if a search was named, gives the very model. -/
theorem ofFields_normalForm {d : Fields} {m : Model} (hd : (Json.obj d).WellFormed) (h : ofFields d = .ok m)
    (hsize : ∀ v ∈ m.vars, v.layout.isMatrix = true → v.size < Word.bound64) :
    (∃ doc, m.toFields false = .ok doc ∧ (Json.obj doc).WellFormed ∧ ofFields doc = .ok { m with searcher := none } ∧
      toFields { m with searcher := none } false = .ok doc) ∧
    (m.searcher ≠ none → ∃ doc, m.toFields true = .ok doc ∧ (Json.obj doc).WellFormed ∧ ofFields doc = .ok m) := by
  have hw := writable_of_ofFields hd h
  have harrange := arrange_of_ofFields h
  have hlimit : m.limit ≠ 0 := Nat.ne_of_gt hw.limitPos
  have hlt : ∀ v ∈ m.vars, v.size < Word.bound64 := fun v hv => Variable.size_lt (hw.varWords v hv) (hsize v hv)
  have hread : ∀ search, ofFields (m.document search) = .ok { m with searcher := search } := by
    intro search
    rw [ofFields_document hw, harrange]
  constructor
  · refine ⟨m.document none, toFields_eq hlimit (by simp), wellFormed_document hw hlt, hread none, ?_⟩
    exact toFields_eq (m := { m with searcher := none }) hlimit (by simp)
  · intro hs
    exact ⟨m.document m.searcher, toFields_eq hlimit fun _ => hs, wellFormed_document hw hlt, hread m.searcher⟩

/-! ### A loose document -/

/-- Two variables have the same name, the matrix comes first and under its base name, the search is spelt in small
letters between blanks, a plain cutoff stands under the key of composed ones, and several fields are null or left out. -/
def looseDocument : Fields :=
  [("solution_limit", .null), ("searcher", .str " dfs "),
    ("var", .arr [
      .obj [("name", .str "board"), ("type", .str "integer_array"), ("subtype", .str "matrix"), ("rows", .int 2),
        ("cols", .int 3), ("brancher_value", .null)],
      .obj [("name", .str "x"), ("type", .str "boolean")],
      .obj [("name", .str "x"), ("type", .str "integer"), ("domlow", .int 0), ("domup", .int 1)]]),
    ("constraint", .arr [
      .obj [("type", .str "rel"), ("expr", .str "x > 0"), ("varset", .str "FLOAT")],
      .obj [("type", .str "distinct"), ("v1", .str "MATRIX$2$3$board"), ("selection", .str "row"), ("size", .int 3),
        ("index", .int 7)]]),
    ("specific", .null), ("meta_cutoff", .obj [("name", .str "fibonacci")])]

/-- What the loose document says. -/
def looseModel : Model where
  vars := [⟨"x", .boolean, .scalar, .unrestricted, .standard, -1⟩,
    ⟨"x", .integer, .scalar, .bounds (.int 0) (.int 1), .standard, -1⟩,
    ⟨"MATRIX$2$3$board", .integer, .matrix 2 3 .standard, .unrestricted, .standard, -1⟩]
  constraints := [⟨none, .relation "x > 0" .float⟩, ⟨none, .distinct "MATRIX$2$3$board" (.row 3 7)⟩]
  searcher := some .depthFirst
  cutoff := some .fibonacci

theorem ofFields_looseDocument : ofFields looseDocument = .ok looseModel := by
  have hvars : entriesOf looseDocument "var" Variable.ofFields = .ok
      [⟨"MATRIX$2$3$board", .integer, .matrix 2 3 .standard, .unrestricted, .standard, -1⟩,
        ⟨"x", .boolean, .scalar, .unrestricted, .standard, -1⟩,
        ⟨"x", .integer, .scalar, .bounds (.int 0) (.int 1), .standard, -1⟩] := rfl
  have hconstraints : entriesOf looseDocument "constraint" (Constraint.ofFields looseModel.vars) =
      .ok looseModel.constraints := rfl
  have hobjectives : entriesOf looseDocument "specific" (Objective.ofFields looseModel.vars) = .ok [] := rfl
  have hlimit : limitOf looseDocument = .ok 1 := rfl
  have hsearcher : searcherOf looseDocument = .ok (some .depthFirst) := rfl
  have hcutoff : cutoffOf looseDocument = .ok (some .fibonacci) := by
    have hread : Cutoff.ofFields [("name", .str "fibonacci")] = .ok .fibonacci :=
      Cutoff.ofFields_of_describes (.fibonacci rfl)
    simp [cutoffOf, looseDocument, Json.fieldsOf, hread]
  have hcallback : looseDocument.string? "callback_url" = .ok none := rfl
  rw [ofFields, hvars, Except.ok_bind]
  show (entriesOf looseDocument "constraint" (Constraint.ofFields looseModel.vars) >>= _) = _
  rw [hconstraints, Except.ok_bind]
  show (entriesOf looseDocument "specific" (Objective.ofFields looseModel.vars) >>= _) = _
  rw [hobjectives, hlimit, hsearcher, hcutoff, hcallback]
  rfl

theorem wellFormed_looseDocument : (Json.obj looseDocument).WellFormed := by
  have hint : ∀ n ∈ [0, 1, 2, 3, 7], (Json.int n).WellFormed := by
    intro n hn
    exact .int_of_isSigned ((by decide : ∀ n ∈ [0, 1, 2, 3, 7], Word.isSigned n = true) n hn)
  simp [looseDocument, Json.WellFormed.arr_iff, hint]

theorem ofFields_normalForm_looseDocument :
    (∃ doc, looseModel.toFields false = .ok doc ∧ (Json.obj doc).WellFormed ∧
      ofFields doc = .ok { looseModel with searcher := none } ∧
      toFields { looseModel with searcher := none } false = .ok doc) ∧
    (looseModel.searcher ≠ none →
      ∃ doc, looseModel.toFields true = .ok doc ∧ (Json.obj doc).WellFormed ∧ ofFields doc = .ok looseModel) :=
  ofFields_normalForm wellFormed_looseDocument ofFields_looseDocument (by decide)

end Model

end SolverClient
