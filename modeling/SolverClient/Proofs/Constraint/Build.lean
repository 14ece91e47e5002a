import SolverClient.Constraint.Build
import SolverClient.Proofs.Constraint.Document
import SolverClient.Proofs.Variable.Document

/-!
# Constraints that are made

Each way to make a constraint from variables refuses a scalar where it needs cells. A part of a matrix has to lie in it
(`Constraint.distinctRow_eq_ok` and the lemmas beside it), and for the region of a view this is one law
(`Constraint.distinctView_eq_ok`). A constraint that is made from variables of a model (`Constraint.MadeFrom`) resolves
in the model, if no two variables have the same name, and its integers are words, if those of the variables are
(`Constraint.MadeFrom.resolvedIn`, `Constraint.MadeFrom.inWords`).
-/

namespace SolverClient

/-! ## Regions -/

namespace Region

/-- The region lies in a grid. -/
def Inside (rows cols : Nat) : Region → Prop
  | row r => r < rows
  | column c => c < cols
  | slice r₀ c₀ r₁ c₁ => (r₀ ≤ r₁ ∧ r₁ < rows) ∧ c₀ ≤ c₁ ∧ c₁ < cols

/-- The selection of a region in a grid. -/
def selection (rows cols : Nat) : Region → Selection
  | row r => .row cols r
  | column c => .column rows c
  | slice r₀ c₀ r₁ c₁ => .slice cols r₀ c₀ r₁ c₁

variable {region : Region} {rows cols : Nat}

theorem selection_ne_whole : region.selection rows cols ≠ .whole := by
  cases region <;> simp [selection]

/-- Inside a grid whose rows and columns are words, the ends of a slice are words also when they are counted from one. -/
theorem Inside.inWords_selection (h : region.Inside rows cols) (hr : rows < Word.bound64) (hc : cols < Word.bound64) :
    (region.selection rows cols).InWords := by
  cases region with
  | row r => exact ⟨hc, Nat.lt_trans h hr⟩
  | column c => exact ⟨hr, Nat.lt_trans h hc⟩
  | slice r₀ c₀ r₁ c₁ =>
    obtain ⟨⟨hr₀, hr₁⟩, hc₀, hc₁⟩ := h
    exact ⟨hc, by omega, by omega, Nat.lt_of_le_of_lt hr₁ hr, Nat.lt_of_le_of_lt hc₁ hc⟩

end Region

namespace Constraint

/-! ## Calls that succeed -/

section Calls

variable {role : String} {v : Variable} {c : Constraint}

/-- A constraint that needs cells is made of anything but a scalar. -/
theorem needArray_bind_eq_ok {a : Constraint} :
    (needArray role v >>= fun _ => pure a) = .ok c ↔ v.layout.isScalar = false ∧ c = a := by
  unfold needArray
  cases v.layout.isScalar with
  | true => simp
  | false => simp [eq_comm]

theorem member_eq_ok {value : Variable} :
    member v value = .ok c ↔ v.layout.isScalar = false ∧ c = unnamed (.member v.name value.name) := needArray_bind_eq_ok

theorem element_eq_ok {index value : Variable} : element v index value = .ok c ↔
    v.layout.isScalar = false ∧ c = unnamed (.element v.name index.name value.name) := needArray_bind_eq_ok

theorem sorted_eq_ok {order : SortOrder} :
    sorted order v = .ok c ↔ v.layout.isScalar = false ∧ c = unnamed (.sorted order v.name) := needArray_bind_eq_ok

theorem distinct_eq_ok :
    distinct v = .ok c ↔ v.layout.isScalar = false ∧ c = unnamed (.distinct v.name .whole) := needArray_bind_eq_ok

theorem needMatrix_eq_ok {rows cols : Nat} :
    needMatrix role v = .ok (rows, cols) ↔ ∃ s, v.layout = .matrix rows cols s := by
  unfold needMatrix
  cases v.layout <;> simp

theorem distinctRow_eq_ok {row : Nat} : distinctRow v row = .ok c ↔
    ∃ rows cols s, v.layout = .matrix rows cols s ∧ row < rows ∧ c = unnamed (.distinct v.name (.row cols row)) := by
  simp only [distinctRow, Except.bind_eq_ok]
  constructor
  · rintro ⟨⟨rows, cols⟩, hl, h⟩
    obtain ⟨s, hl⟩ := needMatrix_eq_ok.1 hl
    split at h
    · cases h
    · cases h
      exact ⟨rows, cols, s, hl, by omega, rfl⟩
  · rintro ⟨rows, cols, s, hl, hrow, rfl⟩
    exact ⟨(rows, cols), needMatrix_eq_ok.2 ⟨s, hl⟩, by simp [Nat.not_le.2 hrow]⟩

theorem distinctColumn_eq_ok {col : Nat} : distinctColumn v col = .ok c ↔
    ∃ rows cols s, v.layout = .matrix rows cols s ∧ col < cols ∧ c = unnamed (.distinct v.name (.column rows col)) := by
  simp only [distinctColumn, Except.bind_eq_ok]
  constructor
  · rintro ⟨⟨rows, cols⟩, hl, h⟩
    obtain ⟨s, hl⟩ := needMatrix_eq_ok.1 hl
    split at h
    · cases h
    · cases h
      exact ⟨rows, cols, s, hl, by omega, rfl⟩
  · rintro ⟨rows, cols, s, hl, hcol, rfl⟩
    exact ⟨(rows, cols), needMatrix_eq_ok.2 ⟨s, hl⟩, by simp [Nat.not_le.2 hcol]⟩

theorem distinctSlice_eq_ok {r₀ c₀ r₁ c₁ : Nat} : distinctSlice v r₀ c₀ r₁ c₁ = .ok c ↔
    ∃ rows cols s, v.layout = .matrix rows cols s ∧ (r₀ ≤ r₁ ∧ r₁ < rows) ∧ (c₀ ≤ c₁ ∧ c₁ < cols) ∧
      c = unnamed (.distinct v.name (.slice cols r₀ c₀ r₁ c₁)) := by
  simp only [distinctSlice, Except.bind_eq_ok]
  constructor
  · rintro ⟨⟨rows, cols⟩, hl, h⟩
    obtain ⟨s, hl⟩ := needMatrix_eq_ok.1 hl
    split at h
    · cases h
    · cases h
      exact ⟨rows, cols, s, hl, by omega, by omega, rfl⟩
  · rintro ⟨rows, cols, s, hl, hr, hc, rfl⟩
    refine ⟨(rows, cols), needMatrix_eq_ok.2 ⟨s, hl⟩, ?_⟩
    have hin : ¬ (r₁ < r₀ ∨ c₁ < c₀ ∨ rows ≤ r₁ ∨ cols ≤ c₁) := by omega
    simp only [hin, if_false]

/-- **A constraint over a view is made iff the region lies in the matrix**, and then selects it. -/
theorem distinctView_eq_ok {view : View} : distinctView view = .ok c ↔
    ∃ rows cols s, view.array.layout = .matrix rows cols s ∧ view.region.Inside rows cols ∧
      c = unnamed (.distinct view.array.name (view.region.selection rows cols)) := by
  unfold distinctView
  cases view.region with
  | row r => exact distinctRow_eq_ok
  | column col => exact distinctColumn_eq_ok
  | slice r₀ c₀ r₁ c₁ => simpa only [Region.Inside, Region.selection, and_assoc] using distinctSlice_eq_ok

/-- The constraint demands that the cells of some part of a matrix differ, and the part is as small as the matrix. -/
def PartOf (v : Variable) (c : Constraint) : Prop :=
  v.layout.isMatrix = true ∧
    ∃ s : Selection, s ≠ .whole ∧ (v.InWords → s.InWords) ∧ c = unnamed (.distinct v.name s)

theorem partOf_of_distinctView (view : View) (h : distinctView view = .ok c) : PartOf view.array c := by
  obtain ⟨rows, cols, s, hl, hinside, rfl⟩ := distinctView_eq_ok.1 h
  refine ⟨by rw [hl]; rfl, view.region.selection rows cols, Region.selection_ne_whole, fun hw => ?_, rfl⟩
  obtain ⟨-, hrows, hcols, -⟩ := hw
  rw [hl] at hrows hcols
  exact hinside.inWords_selection hrows hcols

namespace PartOf

variable {vars : List Variable}

theorem resolvedIn (h : PartOf v c) (hv : v ∈ vars) (hn : (vars.map Variable.name).Nodup) :
    c.demand.ResolvedIn vars := by
  obtain ⟨hl, s, hne, -, rfl⟩ := h
  exact (Demand.resolvedIn_distinct_iff hne).2 (Variable.namesMatrix_of_mem hn hv hl)

theorem inWords (h : PartOf v c) (hw : v.InWords) : c.demand.InWords := by
  obtain ⟨-, s, -, hs, rfl⟩ := h
  exact hs hw

end PartOf

end Calls

/-! ## Constraints from the variables of a model -/

/-- The constraint is made from variables of the list, or it is an expression, whatever that speaks of. -/
inductive MadeFrom (vars : List Variable) : Constraint → Prop
  | elementary {f : ElementaryFunction} {operand result : Variable} (hx : operand ∈ vars) (hz : result ∈ vars) :
      MadeFrom vars (elementary f operand result)
  | arithmetic {op : ArithmeticOperation} {left right result : Variable} (hx : left ∈ vars) (hy : right ∈ vars)
      (hz : result ∈ vars) : MadeFrom vars (arithmetic op left right result)
  | power {op : PowerOperation} {base result : Variable} {exponent : Numeric} (hx : base ∈ vars)
      (he : exponent.InWords) (hz : result ∈ vars) : MadeFrom vars (power op base exponent result)
  | member {array value : Variable} {c : Constraint} (ha : array ∈ vars) (hx : value ∈ vars)
      (h : member array value = .ok c) : MadeFrom vars c
  | element {array index value : Variable} {c : Constraint} (ha : array ∈ vars) (hi : index ∈ vars) (hx : value ∈ vars)
      (h : element array index value = .ok c) : MadeFrom vars c
  | sorted {order : SortOrder} {array : Variable} {c : Constraint} (ha : array ∈ vars) (h : sorted order array = .ok c) :
      MadeFrom vars c
  | distinct {array : Variable} {c : Constraint} (ha : array ∈ vars) (h : distinct array = .ok c) : MadeFrom vars c
  | distinctRow {matrix : Variable} {row : Nat} {c : Constraint} (ha : matrix ∈ vars)
      (h : distinctRow matrix row = .ok c) : MadeFrom vars c
  | distinctColumn {matrix : Variable} {col : Nat} {c : Constraint} (ha : matrix ∈ vars)
      (h : distinctColumn matrix col = .ok c) : MadeFrom vars c
  | distinctSlice {matrix : Variable} {r₀ c₀ r₁ c₁ : Nat} {c : Constraint} (ha : matrix ∈ vars)
      (h : distinctSlice matrix r₀ c₀ r₁ c₁ = .ok c) : MadeFrom vars c
  | distinctView {view : View} {c : Constraint} (ha : view.array ∈ vars) (h : distinctView view = .ok c) :
      MadeFrom vars c
  | relation (e : Expression) : MadeFrom vars (relation e)
  | ifThen (condition thenBranch : Expression) : MadeFrom vars (ifThen condition thenBranch)
  | ifThenElse (condition thenBranch elseBranch : Expression) :
      MadeFrom vars (ifThenElse condition thenBranch elseBranch)
  | withName {c : Constraint} (name : String) (h : MadeFrom vars c) : MadeFrom vars (c.withName name)
  | withKind {c : Constraint} (kind : ValueKind) (h : MadeFrom vars c) : MadeFrom vars (c.withKind kind)

namespace MadeFrom

variable {vars vars' : List Variable} {c : Constraint}

/-- Over another kind of values the same names are to be resolved. -/
theorem resolvedIn_withKind {kind : ValueKind} (h : c.demand.ResolvedIn vars) :
    (c.withKind kind).demand.ResolvedIn vars := by
  obtain ⟨name, demand⟩ := c
  cases demand <;> exact h

theorem inWords_withKind {kind : ValueKind} (h : c.demand.InWords) : (c.withKind kind).demand.InWords := by
  obtain ⟨name, demand⟩ := c
  cases demand <;> exact h

/-- **A constraint that is made from variables resolves** in every list that holds them, if no two variables of the list
have the same name. -/
theorem resolvedIn (h : MadeFrom vars c) (hmem : ∀ v ∈ vars, v ∈ vars') (hn : (vars'.map Variable.name).Nodup) :
    c.demand.ResolvedIn vars' := by
  induction h with
  | elementary hx hz => exact ⟨Variable.named_of_mem hn (hmem _ hx), Variable.named_of_mem hn (hmem _ hz)⟩
  | arithmetic hx hy hz =>
    exact ⟨Variable.named_of_mem hn (hmem _ hx), Variable.named_of_mem hn (hmem _ hy),
      Variable.named_of_mem hn (hmem _ hz)⟩
  | power hx _ hz => exact ⟨Variable.named_of_mem hn (hmem _ hx), Variable.named_of_mem hn (hmem _ hz)⟩
  | member ha hx h =>
    obtain ⟨hl, rfl⟩ := member_eq_ok.1 h
    exact ⟨Variable.namesArray_of_mem hn (hmem _ ha) hl, Variable.named_of_mem hn (hmem _ hx)⟩
  | element ha hi hx h =>
    obtain ⟨hl, rfl⟩ := element_eq_ok.1 h
    exact ⟨Variable.namesArray_of_mem hn (hmem _ ha) hl, Variable.named_of_mem hn (hmem _ hi),
      Variable.named_of_mem hn (hmem _ hx)⟩
  | sorted ha h =>
    obtain ⟨hl, rfl⟩ := sorted_eq_ok.1 h
    exact Variable.namesArray_of_mem hn (hmem _ ha) hl
  | distinct ha h =>
    obtain ⟨hl, rfl⟩ := distinct_eq_ok.1 h
    exact Variable.namesArray_of_mem hn (hmem _ ha) hl
  | @distinctRow matrix row _ ha h => exact (partOf_of_distinctView ⟨matrix, .row row⟩ h).resolvedIn (hmem _ ha) hn
  | @distinctColumn matrix col _ ha h =>
    exact (partOf_of_distinctView ⟨matrix, .column col⟩ h).resolvedIn (hmem _ ha) hn
  | @distinctSlice matrix r₀ c₀ r₁ c₁ _ ha h =>
    exact (partOf_of_distinctView ⟨matrix, .slice r₀ c₀ r₁ c₁⟩ h).resolvedIn (hmem _ ha) hn
  | distinctView ha h => exact (partOf_of_distinctView _ h).resolvedIn (hmem _ ha) hn
  | relation _ => trivial
  | ifThen _ _ => trivial
  | ifThenElse _ _ _ => trivial
  | withName _ _ ih => exact ih
  | withKind _ _ ih => exact resolvedIn_withKind ih

/-- The integers of a constraint are words if those of the variables are. -/
theorem inWords (h : MadeFrom vars c) (hw : ∀ v ∈ vars, v.InWords) : c.demand.InWords := by
  induction h with
  | power _ he _ => exact he
  | member _ _ h => obtain ⟨-, rfl⟩ := member_eq_ok.1 h; trivial
  | element _ _ _ h => obtain ⟨-, rfl⟩ := element_eq_ok.1 h; trivial
  | sorted _ h => obtain ⟨-, rfl⟩ := sorted_eq_ok.1 h; trivial
  | distinct _ h => obtain ⟨-, rfl⟩ := distinct_eq_ok.1 h; trivial
  | @distinctRow matrix row _ ha h => exact (partOf_of_distinctView ⟨matrix, .row row⟩ h).inWords (hw _ ha)
  | @distinctColumn matrix col _ ha h => exact (partOf_of_distinctView ⟨matrix, .column col⟩ h).inWords (hw _ ha)
  | @distinctSlice matrix r₀ c₀ r₁ c₁ _ ha h =>
    exact (partOf_of_distinctView ⟨matrix, .slice r₀ c₀ r₁ c₁⟩ h).inWords (hw _ ha)
  | distinctView ha h => exact (partOf_of_distinctView _ h).inWords (hw _ ha)
  | withName _ _ ih => exact ih
  | withKind _ _ ih => exact inWords_withKind ih
  | _ => trivial

end MadeFrom

end Constraint

end SolverClient
