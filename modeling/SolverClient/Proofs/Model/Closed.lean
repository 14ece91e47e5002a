import SolverClient.Proofs.Constraint.Reference
import SolverClient.Proofs.Model.NormalForm

/-!
# Models that were read are closed and complete

A model that was read has just one variable, constraint and objective for each entry of its document, in order
(`Model.ReadFrom`), and each name in it is that of a variable of the shape that it is used for (`Model.Closed`). No entry
is passed over: one whose tag is unknown, or which names no variable of the shape that its tag asks for
(`Model.FaultyDocument`), makes the whole document fail (`Model.ofFields_closed_and_complete`).
-/

namespace SolverClient

/-! ## Faulty entries -/

/-- The entry is no object with the type of a variable. -/
def Variable.FaultyEntry (entry : Json) : Prop :=
  ∀ (e : Fields) (tag : String), entry = .obj e → e.string "type" = .ok tag → tag ∉ typeTags.map Prod.fst

/-- The entry is no object with the tag of a constraint, or a field that the tag refers to names no variable of its
role. -/
def Constraint.FaultyEntry (vars : List Variable) (entry : Json) : Prop :=
  ∀ (e : Fields) (tag : String), entry = .obj e → e.string "type" = .ok tag →
    tag ∉ Demand.tags ∨ ∃ key role, Demand.Refers e tag key role ∧ ¬ role.InField vars e key

/-- The entry is no object with the word for a direction, or it names no variable. -/
def Objective.FaultyEntry (vars : List Variable) (entry : Json) : Prop :=
  ∀ (e : Fields) (tag : String), entry = .obj e → e.string "type" = .ok tag →
    tag ∉ ["minimize", "maximize"] ∨ ¬ Role.named.InField vars e "var"

section Entries

variable {vars : List Variable} {e : Fields}

theorem Variable.not_faultyEntry {v : Variable} (h : ofFields e = .ok v) : ¬ FaultyEntry (.obj e) := by
  obtain ⟨tag, htag, hkind⟩ := (describes_of_ofFields h).type
  intro hfaulty
  exact hfaulty e tag rfl (Fields.string_of_get? htag) (List.mem_map_of_mem hkind)

theorem Constraint.not_faultyEntry {c : Constraint} (h : ofFields vars e = .ok c) : ¬ FaultyEntry vars (.obj e) := by
  obtain ⟨-, tag, htag, hdescribes⟩ := ofFields_eq_ok.1 h
  intro hfaulty
  rcases hfaulty e tag rfl htag with hunknown | ⟨key, role, hrefers, hfield⟩
  · exact hunknown hdescribes.mem_tags
  · exact hfield (hdescribes.inField hrefers)

theorem Objective.not_faultyEntry {o : Objective} (h : ofFields vars e = .ok o) : ¬ FaultyEntry vars (.obj e) := by
  obtain ⟨htag, hname, hnamed⟩ := ofFields_eq_ok.1 h
  intro hfaulty
  rcases hfaulty e o.direction.tag rfl htag with hunknown | hfield
  · cases hd : o.direction <;> simp [hd, Direction.tag] at hunknown
  · exact hfield ⟨o.variableName, Fields.string_eq_ok.1 hname, hnamed⟩

end Entries

namespace Model

/-! ## Entry by entry -/

/-- The items of the array under a key, none if there is no array. -/
def items (d : Fields) (key : String) : List Json := ((d.get? key).bind Json.asArray?).getD []

/-- The list holds what each entry under the key is read as, in order. -/
def ReadEach {α : Type} (d : Fields) (key : String) (read : Fields → Except ModelError α) (l : List α) : Prop :=
  List.Forall₂ (fun entry a => ∃ e, entry = .obj e ∧ read e = .ok a) (items d key) l

section Entries

variable {α : Type} {d : Fields} {key : String} {read : Fields → Except ModelError α} {l : List α}

theorem items_of_arrayOrEmpty {entries : List Json} (h : d.arrayOrEmpty key = .ok entries) : items d key = entries := by
  obtain ⟨o, ho, rfl⟩ := Except.map_eq_ok.1 h
  rcases Fields.optional_eq_ok.1 ho with ⟨rfl, hnone | hnull⟩ | ⟨v, a, hv, -, ha, rfl⟩
  · simp [items, hnone]
  · simp [items, hnull, Json.asArray?]
  · simp [items, hv, ha]

/-- **Each entry is read, and nothing else.** -/
theorem readEach_of_entriesOf (h : entriesOf d key read = .ok l) : ReadEach d key read l := by
  simp only [entriesOf, Except.bind_eq_ok] at h
  obtain ⟨entries, hentries, h⟩ := h
  rw [ReadEach, items_of_arrayOrEmpty hentries]
  refine (Except.mapM_eq_ok.1 h).imp fun entry a hread => ?_
  obtain ⟨e, he, ha⟩ := Except.bind_eq_ok.1 hread
  exact ⟨e, Json.fieldsOf_eq_ok.1 he, ha⟩

/-- **No entry is passed over.** -/
theorem ReadEach.exists_of_mem (h : ReadEach d key read l) {entry : Json} (hentry : entry ∈ items d key) :
    ∃ e a, entry = .obj e ∧ read e = .ok a := by
  obtain ⟨a, -, e, he, ha⟩ := exists_of_forall₂ h.flip entry hentry
  exact ⟨e, a, he, ha⟩

end Entries

/-! ## The model of a document -/

/-- Each name in the model is that of a variable of the model, of the shape that it is used for. -/
structure Closed (m : Model) : Prop where
  constraints : ∀ c ∈ m.constraints, c.demand.ResolvedIn m.vars
  objectives : ∀ o ∈ m.objectives, Variable.Named m.vars o.variableName

/-- The model holds what each entry of the document is read as: the variables in the order of their shapes, constraints
and objectives in the order of the document. -/
structure ReadFrom (m : Model) (d : Fields) : Prop where
  vars : ∃ vars, ReadEach d "var" Variable.ofFields vars ∧ m.vars = arrange vars
  constraints : ReadEach d "constraint" (Constraint.ofFields m.vars) m.constraints
  objectives : ReadEach d "specific" (Objective.ofFields m.vars) m.objectives

/-- A variable of the document is faulty, or a constraint or an objective is over the variables of the document. -/
def FaultyDocument (d : Fields) : Prop :=
  (∃ entry ∈ items d "var", Variable.FaultyEntry entry) ∨
    ∀ vars, ReadEach d "var" Variable.ofFields vars →
      (∃ entry ∈ items d "constraint", Constraint.FaultyEntry (arrange vars) entry) ∨
        ∃ entry ∈ items d "specific", Objective.FaultyEntry (arrange vars) entry

section Reading

variable {d : Fields} {m : Model}

theorem readFrom_of_ofFields (h : ofFields d = .ok m) : m.ReadFrom d := by
  obtain ⟨vars, hvars, hv, hconstraints, hobjectives, -⟩ := ofFields_cases h
  exact ⟨⟨vars, readEach_of_entriesOf hvars, hv⟩, readEach_of_entriesOf hconstraints, readEach_of_entriesOf hobjectives⟩

namespace ReadFrom

theorem closed (h : m.ReadFrom d) : m.Closed := by
  constructor
  · intro c hc
    obtain ⟨entry, -, e, -, hread⟩ := exists_of_forall₂ h.constraints c hc
    obtain ⟨-, tag, -, hdescribes⟩ := Constraint.ofFields_eq_ok.1 hread
    exact hdescribes.resolvedIn
  · intro o ho
    obtain ⟨entry, -, e, -, hread⟩ := exists_of_forall₂ h.objectives o ho
    exact (Objective.ofFields_eq_ok.1 hread).2.2

theorem not_faultyDocument (h : m.ReadFrom d) : ¬ FaultyDocument d := by
  obtain ⟨vars, hvars, hv⟩ := h.vars
  rintro (⟨entry, hentry, hfaulty⟩ | hfaulty)
  · obtain ⟨e, v, rfl, hread⟩ := hvars.exists_of_mem hentry
    exact Variable.not_faultyEntry hread hfaulty
  · have hfaulty := hfaulty vars hvars
    rw [← hv] at hfaulty
    rcases hfaulty with ⟨entry, hentry, hfaulty⟩ | ⟨entry, hentry, hfaulty⟩
    · obtain ⟨e, c, rfl, hread⟩ := h.constraints.exists_of_mem hentry
      exact Constraint.not_faultyEntry hread hfaulty
    · obtain ⟨e, o, rfl, hread⟩ := h.objectives.exists_of_mem hentry
      exact Objective.not_faultyEntry hread hfaulty

end ReadFrom

end Reading

/-- **A model that was read is closed and holds each entry of its document, and a document with a faulty entry has no
model.** -/
theorem ofFields_closed_and_complete (d : Fields) :
    (∀ m, ofFields d = .ok m → m.Closed ∧ m.ReadFrom d) ∧ (FaultyDocument d → ∃ error, ofFields d = .error error) := by
  constructor
  · intro m h
    have hread := readFrom_of_ofFields h
    exact ⟨hread.closed, hread⟩
  · intro hfaulty
    cases h : ofFields d with
    | error error => exact ⟨error, rfl⟩
    | ok m => exact absurd hfaulty (readFrom_of_ofFields h).not_faultyDocument

/-- A scalar stands where a constraint asks for the cells of an array. -/
def scalarForArrayDocument : Fields :=
  [("var", .arr [.obj [("name", .str "x"), ("type", .str "integer")]]),
    ("constraint", .arr [.obj [("type", .str "member"), ("v1", .str "x"), ("v2", .str "x")]])]

theorem faultyDocument_scalarForArray : FaultyDocument scalarForArrayDocument := by
  refine Or.inr fun vars hvars => Or.inl ⟨_, List.mem_singleton_self _, fun e tag he htag => Or.inr ⟨"v1", .cells, ?_⟩⟩
  cases he
  cases htag
  refine ⟨.memberArray, ?_⟩
  cases hvars with
  | cons hread hrest =>
    obtain ⟨e, he, hread⟩ := hread
    cases hrest
    cases he
    cases hread
    rintro ⟨name, hname, v, hv, hl⟩
    cases hname
    cases hv
    cases hl

theorem ofFields_closed_and_complete_documents :
    (looseModel.Closed ∧ looseModel.ReadFrom looseDocument) ∧ ∃ error, ofFields scalarForArrayDocument = .error error :=
  ⟨(ofFields_closed_and_complete looseDocument).1 looseModel ofFields_looseDocument,
    (ofFields_closed_and_complete scalarForArrayDocument).2 faultyDocument_scalarForArray⟩

end Model

end SolverClient
