import SolverClient.Model.Document

/-!
# The order of variables

The reader of a model puts scalars before arrays and arrays before matrices. It loses no variable and doubles none
(`Model.arrange_perm`), and within each of the three groups it keeps the order (`Model.filter_scalars_arrange` and the
lemmas beside it), so that ordering twice is ordering once (`Model.arrange_arrange`).
-/

namespace SolverClient.Model

variable (vars : List Variable)

/-- Taking variables by their layout twice is taking them once. -/
theorem filter_filter_layout {p q r : Layout → Bool} (h : ∀ l, (p l && q l) = r l) :
    (vars.filter fun v => q v.layout).filter (fun v => p v.layout) = vars.filter fun v => r v.layout := by
  rw [List.filter_filter]
  exact List.filter_congr fun v _ => h v.layout

/-- No variable is in two groups. -/
theorem filter_filter_layout_eq_nil {p q : Layout → Bool} (h : ∀ l, (p l && q l) = false) :
    (vars.filter fun v => q v.layout).filter (fun v => p v.layout) = [] := by
  rw [List.filter_filter, List.filter_eq_nil_iff]
  intro v _
  simp [h v.layout]

/-- **No variable is lost or doubled.** -/
theorem arrange_perm : (arrange vars).Perm vars := by
  have hrest := filter_filter_layout vars (p := fun l => !l.isMatrix) (q := fun l => !l.isScalar)
    (r := fun l => !l.isScalar && !l.isMatrix) (by intro l; cases l <;> rfl)
  have hmatrix := filter_filter_layout vars (p := fun l => l.isMatrix) (q := fun l => !l.isScalar)
    (r := fun l => l.isMatrix) (by intro l; cases l <;> rfl)
  have hsplit := List.filter_append_perm (fun v : Variable => !v.layout.isMatrix)
    (vars.filter fun v => !v.layout.isScalar)
  simp only [Bool.not_not] at hsplit
  rw [hrest, hmatrix] at hsplit
  rw [arrange, List.append_assoc]
  exact (hsplit.append_left _).trans (List.filter_append_perm (fun v : Variable => v.layout.isScalar) vars)

@[simp]
theorem filter_scalars_arrange : (arrange vars).filter (·.layout.isScalar) = vars.filter (·.layout.isScalar) := by
  rw [arrange, List.filter_append, List.filter_append,
    filter_filter_layout vars (p := Layout.isScalar) (q := Layout.isScalar) (r := Layout.isScalar)
      (by intro l; cases l <;> rfl),
    filter_filter_layout_eq_nil vars (p := Layout.isScalar) (q := fun l => !l.isScalar && !l.isMatrix)
      (by intro l; cases l <;> rfl),
    filter_filter_layout_eq_nil vars (p := Layout.isScalar) (q := Layout.isMatrix) (by intro l; cases l <;> rfl),
    List.append_nil, List.append_nil]

@[simp]
theorem filter_arrays_arrange : (arrange vars).filter (fun v => !v.layout.isScalar && !v.layout.isMatrix) =
    vars.filter fun v => !v.layout.isScalar && !v.layout.isMatrix := by
  rw [arrange, List.filter_append, List.filter_append,
    filter_filter_layout_eq_nil vars (p := fun l => !l.isScalar && !l.isMatrix) (q := Layout.isScalar)
      (by intro l; cases l <;> rfl),
    filter_filter_layout vars (p := fun l => !l.isScalar && !l.isMatrix) (q := fun l => !l.isScalar && !l.isMatrix)
      (r := fun l => !l.isScalar && !l.isMatrix) (by intro l; cases l <;> rfl),
    filter_filter_layout_eq_nil vars (p := fun l => !l.isScalar && !l.isMatrix) (q := Layout.isMatrix)
      (by intro l; cases l <;> rfl),
    List.nil_append, List.append_nil]

@[simp]
theorem filter_matrices_arrange : (arrange vars).filter (·.layout.isMatrix) = vars.filter (·.layout.isMatrix) := by
  rw [arrange, List.filter_append, List.filter_append,
    filter_filter_layout_eq_nil vars (p := Layout.isMatrix) (q := Layout.isScalar) (by intro l; cases l <;> rfl),
    filter_filter_layout_eq_nil vars (p := Layout.isMatrix) (q := fun l => !l.isScalar && !l.isMatrix)
      (by intro l; cases l <;> rfl),
    filter_filter_layout vars (p := Layout.isMatrix) (q := Layout.isMatrix) (r := Layout.isMatrix)
      (by intro l; cases l <;> rfl),
    List.nil_append, List.nil_append]

/-- **Variables in order stay in order.** -/
@[simp]
theorem arrange_arrange : arrange (arrange vars) = arrange vars := by
  rw [arrange, filter_scalars_arrange, filter_arrays_arrange, filter_matrices_arrange, ← arrange]

@[simp]
theorem mem_arrange {v : Variable} : v ∈ arrange vars ↔ v ∈ vars := (arrange_perm vars).mem_iff

end SolverClient.Model
