import SolverClient.Objective
import SolverClient.Proofs.Json.WellFormed
import SolverClient.Proofs.Variable.Reference

/-!
# Objectives are read back

An objective is read from the word for its direction and a reference that resolves (`Objective.ofFields_eq_ok`), and
it is read back over variables of which one has its name (`Objective.ofFields_toFields`).
-/

namespace SolverClient.Objective

variable {vars : List Variable} {d : Fields} {o : Objective}

theorem directionOf_eq_ok {direction : Direction} :
    directionOf d = .ok direction ↔ d.string "type" = .ok direction.tag := by
  simp only [directionOf, Except.bind_eq_ok]
  constructor
  · rintro ⟨tag, ht, h⟩
    split at h
    · rename_i hmin
      cases h
      rw [ht, hmin]
      rfl
    split at h
    · rename_i hmax
      cases h
      rw [ht, hmax]
      rfl
    · cases h
  · intro ht
    cases direction with
    | minimize => exact ⟨"minimize", ht, rfl⟩
    | maximize => exact ⟨"maximize", ht, rfl⟩

theorem ofFields_eq_ok : ofFields vars d = .ok o ↔
    d.string "type" = .ok o.direction.tag ∧ d.string "var" = .ok o.variableName ∧
      Variable.Named vars o.variableName := by
  simp only [ofFields, Except.bind_eq_ok, Except.pure_eq_ok, directionOf_eq_ok, Variable.reference_eq_ok]
  constructor
  · rintro ⟨direction, ht, name, hname, rfl⟩
    exact ⟨ht, hname⟩
  · rintro ⟨ht, hname⟩
    exact ⟨o.direction, ht, o.variableName, hname, rfl⟩

/-- **An objective is read back** over variables of which one has its name. -/
theorem ofFields_toFields (h : Variable.Named vars o.variableName) : ofFields vars o.toFields = .ok o :=
  ofFields_eq_ok.2 ⟨Fields.string_of_get? rfl, Fields.string_of_get? rfl, h⟩

/-- A text can hold the fields of an objective. -/
theorem wellFormed_toFields : (Json.obj o.toFields).WellFormed := by simp [toFields]

end SolverClient.Objective
