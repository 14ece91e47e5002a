import SolverClient.Constraint.Document
import SolverClient.Proofs.Field

/-!
# References to variables

A constraint or an objective knows its variables by their names. A name resolves if some variable of the model has it
(`Variable.Named`), and where cells or a matrix are asked for, the first such variable has to be an array
(`Variable.NamesArray`) or a matrix (`Variable.NamesMatrix`). The three readers of references accept just the names that
resolve (`Variable.reference_eq_ok`, `Variable.arrayReference_eq_ok`, `Variable.matrixReference_eq_ok`).
-/

namespace SolverClient.Variable

/-- Some variable has the name. -/
def Named (vars : List Variable) (name : String) : Prop := ∃ v, find? vars name = some v

/-- The first variable of the name has cells. -/
def NamesArray (vars : List Variable) (name : String) : Prop :=
  ∃ v, find? vars name = some v ∧ v.layout.isScalar = false

/-- The first variable of the name is a matrix. -/
def NamesMatrix (vars : List Variable) (name : String) : Prop :=
  ∃ v, find? vars name = some v ∧ v.layout.isMatrix = true

section Resolving

variable {vars : List Variable} {name : String} {v : Variable}

theorem name_of_find? (h : find? vars name = some v) : v.name = name := by
  have h := List.find?_some h
  simpa using h

/-- If no two variables have the same name then each is found by its own. -/
theorem find?_of_mem (hn : (vars.map Variable.name).Nodup) (hv : v ∈ vars) : find? vars v.name = some v := by
  induction vars with
  | nil => cases hv
  | cons w vars ih =>
    rw [List.map_cons, List.nodup_cons] at hn
    rcases List.mem_cons.1 hv with rfl | hv
    · simp [find?]
    · have hne : w.name ≠ v.name := fun h => hn.1 (h ▸ List.mem_map_of_mem hv)
      rw [find?, List.find?_cons_of_neg (by simpa using hne)]
      exact ih hn.2 hv

theorem named_of_mem (hn : (vars.map Variable.name).Nodup) (hv : v ∈ vars) : Named vars v.name :=
  ⟨v, find?_of_mem hn hv⟩

theorem namesArray_of_mem (hn : (vars.map Variable.name).Nodup) (hv : v ∈ vars) (hl : v.layout.isScalar = false) :
    NamesArray vars v.name := ⟨v, find?_of_mem hn hv, hl⟩

theorem namesMatrix_of_mem (hn : (vars.map Variable.name).Nodup) (hv : v ∈ vars) (hl : v.layout.isMatrix = true) :
    NamesMatrix vars v.name := ⟨v, find?_of_mem hn hv, hl⟩

end Resolving

/-! ## Readers of references -/

section Readers

variable {vars : List Variable} {d : Fields} {key name : String}

theorem referenced_eq_ok {v : Variable} :
    referenced vars d key = .ok v ↔ d.string key = .ok v.name ∧ find? vars v.name = some v := by
  simp only [referenced, Except.bind_eq_ok]
  constructor
  · rintro ⟨name, hname, h⟩
    split at h
    · rename_i w hw
      cases h
      rw [name_of_find? hw]
      exact ⟨hname, hw⟩
    · cases h
  · rintro ⟨hname, hv⟩
    exact ⟨v.name, hname, by simp [hv]⟩

theorem reference_eq_ok : reference vars d key = .ok name ↔ d.string key = .ok name ∧ Named vars name := by
  simp only [reference, Except.bind_eq_ok, Except.pure_eq_ok, referenced_eq_ok]
  constructor
  · rintro ⟨v, ⟨hname, hv⟩, rfl⟩
    exact ⟨hname, v, hv⟩
  · rintro ⟨hname, v, hv⟩
    obtain rfl := name_of_find? hv
    exact ⟨v, ⟨hname, hv⟩, rfl⟩

theorem arrayReference_eq_ok :
    arrayReference vars d key = .ok name ↔ d.string key = .ok name ∧ NamesArray vars name := by
  simp only [arrayReference, Except.bind_eq_ok, referenced_eq_ok]
  constructor
  · rintro ⟨v, ⟨hname, hv⟩, h⟩
    split at h
    · cases h
    · rename_i hl
      cases h
      exact ⟨hname, v, hv, by simpa using hl⟩
  · rintro ⟨hname, v, hv, hl⟩
    obtain rfl := name_of_find? hv
    exact ⟨v, ⟨hname, hv⟩, by simp [hl]⟩

theorem matrixReference_eq_ok {s : Selection} :
    matrixReference vars d key s = .ok name ↔ d.string key = .ok name ∧ NamesMatrix vars name := by
  simp only [matrixReference, Except.bind_eq_ok, referenced_eq_ok]
  constructor
  · rintro ⟨v, ⟨hname, hv⟩, h⟩
    split at h
    · rename_i hl
      cases h
      exact ⟨hname, v, hv, hl⟩
    · cases h
  · rintro ⟨hname, v, hv, hl⟩
    obtain rfl := name_of_find? hv
    exact ⟨v, ⟨hname, hv⟩, by simp [hl]⟩

end Readers

end SolverClient.Variable
