import SolverClient.Model.InWords
import SolverClient.Proofs.Model.Document
import SolverClient.Proofs.Variable.InWords

/-!
# When a model can be written with counts in words

A model is **counted** (`Model.Counted`) if each of its variables is: no matrix of it has more cells than words can
count. A counted model is written as without bounds. One that is not comes to nothing as soon as its variables are
written, which is after the limit and the search were looked at (`Model.toFieldsInWords?_cases`).
-/

namespace SolverClient.Model

variable {m : Model} {final : Bool}

/-- The cells of each matrix of the model can be counted. -/
def Counted (m : Model) : Prop := ∀ v ∈ m.vars, v.Counted

/-- **A counted model is written as without bounds.** -/
theorem toFieldsInWords?_of_counted (h : m.Counted) : m.toFieldsInWords? final = some (m.toFields final) := by
  have hvars := mapM_eq_some_map fun v hv => Variable.toFieldsInWords?_of_counted (h v hv)
  rw [toFieldsInWords?, toFields, hvars]
  cases m.searchFields final <;> rfl

/-- So is its text. -/
theorem toTextInWords?_of_counted (h : m.Counted) : m.toTextInWords? final = some (m.toText final) := by
  rw [toTextInWords?, toFieldsInWords?_of_counted h, toText]
  cases m.toFields final <;> rfl

/-- **A model with a matrix of which the cells cannot be counted is not written**, where it had a document. -/
theorem toFieldsInWords?_of_not_counted {doc : Fields} (h : ¬ m.Counted) (hdoc : m.toFields final = .ok doc) :
    m.toFieldsInWords? final = none := by
  simp only [Counted, not_forall] at h
  obtain ⟨v, hv, hcells⟩ := h
  have hvars := mapM_eq_none_of_mem hv (Variable.toFieldsInWords?_of_not_counted hcells)
  rw [toFields] at hdoc
  rw [toFieldsInWords?, hvars]
  cases hsearch : m.searchFields final with
  | error e =>
    rw [hsearch] at hdoc
    cases hdoc
  | ok search => rfl

/-- What is wrong with the limit or the search is found first. -/
theorem toFieldsInWords?_of_error {e : ModelError} (h : m.toFields final = .error e) :
    m.toFieldsInWords? final = some (.error e) := by
  rw [toFields] at h
  rw [toFieldsInWords?]
  cases hsearch : m.searchFields final with
  | error e' =>
    rw [hsearch] at h
    cases h
    rfl
  | ok search =>
    rw [hsearch] at h
    cases h

/-- **Writing a model comes to nothing exactly if it has a document and is not counted**, and else to what it comes to
without bounds. -/
theorem toFieldsInWords?_cases (m : Model) (final : Bool) :
    (¬ m.Counted ∧ (∃ doc, m.toFields final = .ok doc) ∧ m.toFieldsInWords? final = none) ∨
      ((m.Counted ∨ ∃ e, m.toFields final = .error e) ∧ m.toFieldsInWords? final = some (m.toFields final)) := by
  by_cases h : m.Counted
  · exact Or.inr ⟨Or.inl h, toFieldsInWords?_of_counted h⟩
  · cases hdoc : m.toFields final with
    | error e => exact Or.inr ⟨Or.inr ⟨e, rfl⟩, toFieldsInWords?_of_error hdoc⟩
    | ok doc => exact Or.inl ⟨h, ⟨doc, rfl⟩, toFieldsInWords?_of_not_counted h hdoc⟩

/-- Only a counted model is written. -/
theorem counted_of_toFieldsInWords? {doc : Fields} (h : m.toFieldsInWords? final = some (.ok doc)) : m.Counted := by
  rcases toFieldsInWords?_cases m final with ⟨-, -, hnone⟩ | ⟨hcounted | ⟨e, he⟩, hsome⟩
  · rw [hnone] at h
    cases h
  · exact hcounted
  · rw [hsome, he] at h
    cases h

end SolverClient.Model
