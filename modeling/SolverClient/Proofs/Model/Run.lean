import SolverClient.Proofs.Constraint.Build
import SolverClient.Proofs.Model.Document
import SolverClient.Proofs.Variable.Declaration

/-!
# Models that are built

A model is built by a run of calls (`Draft.run`). Each call that keeps to the rules (`Call.Allowed`) keeps the model
built from variables of a list (`Model.BuiltFrom`, `Draft.builtFrom_apply`), and so does a whole run
(`Draft.builtFrom_run`). A model that is built from its own variables, no two of one name, is writable
(`Model.BuiltFrom.writable`), and that is why it is read back from its document.
-/

namespace SolverClient

/-! ## Calls -/

/-- A call that changes a model in the making. -/
inductive Call where
  | addVariable (v : Variable)
  | addConstraint (c : Constraint)
  | addObjective (o : Objective)
  | setSearcher (s : Searcher)
  | setCutoff (c : Cutoff)
  | clearCutoff
  | setCallback (url : String)
  | setLimit (limit : Nat)

namespace Draft

/-- The draft after a call. -/
def apply (d : Draft) : Call → Draft
  | .addVariable v => d.addVariable v
  | .addConstraint c => d.addConstraint c
  | .addObjective o => d.addObjective o
  | .setSearcher s => d.modify fun m => { m with searcher := some s }
  | .setCutoff c => d.modify fun m => { m with cutoff := some c }
  | .clearCutoff => d.modify fun m => { m with cutoff := none }
  | .setCallback url => d.modify fun m => { m with callback := some url }
  | .setLimit limit => d.modify fun m => { m with limit }

/-- The draft after a run of calls. -/
def run (d : Draft) (calls : List Call) : Draft := calls.foldl apply d

/-- A constraint is added as it is or under a name that is drawn for it. -/
theorem addConstraint_cases (d : Draft) (c : Constraint) :
    (d.addConstraint c).model = d.model.addConstraint c ∨
      ∃ name, (d.addConstraint c).model = d.model.addConstraint (c.withName name) := by
  unfold addConstraint
  split
  · exact Or.inl rfl
  · exact Or.inr ⟨_, rfl⟩

end Draft

/-! ## Variables, constraints and objectives by the rules -/

/-- The call keeps to the rules of a model with the given variables: a variable is declared and has finite doubles; a
constraint is made from the variables, has a finite exponent and a branch that is kept; an objective is about one of
them; the integers are those of the machine. -/
def Call.Allowed (vars : List Variable) : Call → Prop
  | .addVariable v => v.Declared ∧ v.IsFinite
  | .addConstraint c => c.MadeFrom vars ∧ c.demand.IsFinite ∧ c.demand.KeepsBranch
  | .addObjective o => ∃ v ∈ vars, o = .minimize v ∨ o = .maximize v
  | .setCutoff c => c.InWords
  | .setLimit limit => limit < Word.bound32
  | _ => True

/-- Everything in the model is by the rules of a model with the given variables. -/
structure Model.BuiltFrom (vars : List Variable) (m : Model) : Prop where
  declared : ∀ v ∈ m.vars, v.Declared ∧ v.IsFinite
  constraints : ∀ c ∈ m.constraints, c.MadeFrom vars ∧ c.demand.IsFinite ∧ c.demand.KeepsBranch
  objectives : ∀ o ∈ m.objectives, ∃ v ∈ vars, o = .minimize v ∨ o = .maximize v
  cutoff : ∀ c, m.cutoff = some c → c.InWords
  limit : m.limit < Word.bound32

namespace Draft

variable {vars : List Variable} {d : Draft}

/-- One more constraint by the rules. -/
theorem builtFrom_addConstraint {m : Model} {c : Constraint} (h : m.BuiltFrom vars)
    (hc : c.MadeFrom vars ∧ c.demand.IsFinite ∧ c.demand.KeepsBranch) : (m.addConstraint c).BuiltFrom vars := by
  refine { h with constraints := fun c' hc' => ?_ }
  rcases List.mem_append.1 hc' with hc' | hc'
  · exact h.constraints c' hc'
  · obtain rfl := List.mem_singleton.1 hc'
    exact hc

/-- **An allowed call keeps the model by the rules.** -/
theorem builtFrom_apply {call : Call} (h : d.model.BuiltFrom vars) (hcall : call.Allowed vars) :
    (d.apply call).model.BuiltFrom vars := by
  cases call with
  | addVariable v =>
    refine { h with declared := fun w hw => ?_ }
    rcases List.mem_append.1 hw with hw | hw
    · exact h.declared w hw
    · obtain rfl := List.mem_singleton.1 hw
      exact hcall
  | addConstraint c =>
    obtain ⟨hmade, hfinite, hbranch⟩ := hcall
    rcases d.addConstraint_cases c with hadd | ⟨name, hadd⟩
    · rw [apply, hadd]
      exact builtFrom_addConstraint h ⟨hmade, hfinite, hbranch⟩
    · rw [apply, hadd]
      exact builtFrom_addConstraint h ⟨hmade.withName name, hfinite, hbranch⟩
  | addObjective o =>
    refine { h with objectives := fun o' ho' => ?_ }
    rcases List.mem_append.1 ho' with ho' | ho'
    · exact h.objectives o' ho'
    · obtain rfl := List.mem_singleton.1 ho'
      exact hcall
  | setSearcher s => exact { h with }
  | setCutoff c =>
    refine { h with cutoff := fun c' hc' => ?_ }
    cases hc'
    exact hcall
  | clearCutoff => exact { h with cutoff := fun c' hc' => by cases hc' }
  | setCallback url => exact { h with }
  | setLimit limit => exact { h with limit := hcall }

/-- **So does a run of allowed calls.** -/
theorem builtFrom_run {calls : List Call} (h : d.model.BuiltFrom vars) (hcalls : ∀ call ∈ calls, call.Allowed vars) :
    (d.run calls).model.BuiltFrom vars := by
  induction calls generalizing d with
  | nil => exact h
  | cons call calls ih =>
    exact ih (builtFrom_apply h (hcalls call List.mem_cons_self)) fun c hc => hcalls c (List.mem_cons_of_mem _ hc)

/-- A new model is by the rules, as nothing is in it. -/
theorem builtFrom_empty : Model.empty.BuiltFrom vars where
  declared _ hv := by cases hv
  constraints _ hc := by cases hc
  objectives _ ho := by cases ho
  cutoff _ hc := by cases hc
  limit := by decide

end Draft

/-! ## The round trip of a model that is built -/

namespace Model

variable {m : Model}

/-- **A model by the rules is writable** if no two of its variables have the same name, its cutoff is finite and its
limit is not zero. -/
theorem BuiltFrom.writable (h : m.BuiltFrom m.vars) (hnames : (m.vars.map Variable.name).Nodup)
    (hcutoff : ∀ c, m.cutoff = some c → c.IsFinite) (hlimit : 1 ≤ m.limit) : m.Writable := by
  have hmem : ∀ v ∈ m.vars, v ∈ arrange m.vars := fun v hv => (mem_arrange m.vars).2 hv
  have hordered : ((arrange m.vars).map Variable.name).Nodup :=
    ((arrange_perm m.vars).map Variable.name).nodup_iff.2 hnames
  have hwords : ∀ v ∈ m.vars, v.InWords := fun v hv => (h.declared v hv).1.inWords
  exact {
    coherent := fun v hv => (h.declared v hv).1.coherent
    varWords := hwords
    varFinite := fun v hv => (h.declared v hv).2
    resolved := fun c hc => (h.constraints c hc).1.resolvedIn hmem hordered
    demandWords := fun c hc => (h.constraints c hc).1.inWords hwords
    demandFinite := fun c hc => (h.constraints c hc).2.1
    keepsBranch := fun c hc => (h.constraints c hc).2.2
    objectives := fun o ho => by
      obtain ⟨v, hv, rfl | rfl⟩ := h.objectives o ho
      · exact Variable.named_of_mem hordered (hmem v hv)
      · exact Variable.named_of_mem hordered (hmem v hv)
    cutoffWords := h.cutoff
    cutoffFinite := hcutoff
    limitPos := hlimit
    limitLt := h.limit }

end Model

namespace Draft

/-- **The document of a model that is built is read back** as that model, with its variables in order and with the
search only if the document is final. It never has a cutoff under both keys. -/
theorem ofFields_toFields_run {source : NameSource} {calls : List Call} {m : Model} {final : Bool}
    (hm : (Draft.run ⟨.empty, source⟩ calls).model = m) (hcalls : ∀ call ∈ calls, call.Allowed m.vars)
    (hnames : (m.vars.map Variable.name).Nodup) (hcutoff : ∀ c, m.cutoff = some c → c.IsFinite) (hlimit : 1 ≤ m.limit)
    (hsearcher : final = true → m.searcher ≠ none) :
    ∃ doc, m.toFields final = .ok doc ∧ (Json.obj doc).WellFormed ∧
      Model.ofFields doc = .ok { m with
        vars := Model.arrange m.vars
        searcher := if final then m.searcher else none } ∧
      ¬ (OrderedMap.contains doc "cutoff" = true ∧ OrderedMap.contains doc "meta_cutoff" = true) := by
  have hbuilt : m.BuiltFrom m.vars := by
    have h := builtFrom_run (d := ⟨.empty, source⟩) builtFrom_empty hcalls
    rwa [hm] at h
  have hw := hbuilt.writable hnames hcutoff hlimit
  refine ⟨m.document (m.searchOf final), Model.toFields_eq (by omega) hsearcher, ?_, Model.ofFields_document hw, ?_⟩
  · exact Model.wellFormed_document hw fun v hv => (hbuilt.declared v hv).1.1
  · exact m.not_both_cutoffs _

/-! ### A run that calls everything -/

/-- A scalar between two bounds. -/
def scalarSample : Variable := ⟨"x", .integer, .scalar, .bounds (.int 0) (.int 10), .standard, Variable.noOrder⟩

/-- A matrix of two rows and three columns. -/
def matrixSample : Variable :=
  ⟨"MATRIX$2$3$board", .integer, .matrix 2 3 .standard, .unrestricted, .standard, Variable.noOrder⟩

/-- The matrix is added before the scalar, and the cutoff is composed. -/
def runSample : List Call :=
  [.addVariable matrixSample, .addVariable scalarSample, .addConstraint (.elementary .abs scalarSample scalarSample),
    .addConstraint (.unnamed (.distinct "MATRIX$2$3$board" (.row 3 1))),
    .addConstraint ((Constraint.ifThenElse (.leaf "x > 1") (.leaf "x > 2") (.leaf "x < 1")).withName "branch"),
    .addObjective (.maximize scalarSample), .setSearcher .branchAndBound,
    .setCutoff (.appender (.geometric 1 (Decimal.ofInt 2)) 3 .fibonacci), .setCallback "progress", .setLimit 2]

/-- The model after the run. -/
def modelSample : Model := (Draft.run ⟨.empty, .standard⟩ runSample).model

theorem declared_scalarSample : scalarSample.Declared := by
  refine ⟨by decide, (Declaration.scalar .integer "x").withBounds (.int 0) (.int 10), ⟨by decide, ?_⟩, rfl⟩
  intro n hn
  rcases List.mem_cons.1 hn with rfl | hn
  · show Word.isSigned 0 = true
    decide
  · obtain rfl := List.mem_singleton.1 hn
    show Word.isSigned 10 = true
    decide

theorem declared_matrixSample : matrixSample.Declared := by
  refine ⟨by decide, Declaration.matrix .integer "board" 2 3, ⟨by decide, ?_⟩, by rfl⟩
  intro n hn
  cases hn

theorem allowed_runSample : ∀ call ∈ runSample, call.Allowed [matrixSample, scalarSample] := by
  have hx : scalarSample ∈ [matrixSample, scalarSample] := by simp
  have hboard : matrixSample ∈ [matrixSample, scalarSample] := by simp
  have hfinite : scalarSample.IsFinite := by
    intro n hn
    rcases List.mem_cons.1 hn with rfl | hn
    · rfl
    · obtain rfl := List.mem_singleton.1 hn
      rfl
  intro call hcall
  simp only [runSample, List.mem_cons, List.not_mem_nil, or_false] at hcall
  rcases hcall with rfl | rfl | rfl | rfl | rfl | rfl | rfl | rfl | rfl | rfl
  · exact ⟨declared_matrixSample, fun n hn => by cases hn⟩
  · exact ⟨declared_scalarSample, hfinite⟩
  · exact ⟨.elementary hx hx, trivial, trivial⟩
  · exact ⟨@Constraint.MadeFrom.distinctRow _ matrixSample 1 _ hboard rfl, trivial, trivial⟩
  · exact ⟨.withName _ (.ifThenElse _ _ _), trivial, by decide, by decide⟩
  · exact ⟨scalarSample, hx, Or.inr rfl⟩
  · trivial
  · exact ⟨by show Word.isSigned 1 = true; decide, by decide, trivial⟩
  · trivial
  · show 2 < Word.bound32
    decide

theorem ofFields_toFields_runSample : ∃ doc, modelSample.toFields true = .ok doc ∧ (Json.obj doc).WellFormed ∧
    Model.ofFields doc = .ok { modelSample with
      vars := [scalarSample, matrixSample]
      searcher := some .branchAndBound } ∧
    ¬ (OrderedMap.contains doc "cutoff" = true ∧ OrderedMap.contains doc "meta_cutoff" = true) := by
  have hcutoff : ∀ c, modelSample.cutoff = some c → c.IsFinite := by
    intro c hc
    cases hc
    exact ⟨Decimal.isFinite_ofInt (by decide), trivial⟩
  exact ofFields_toFields_run (m := modelSample) rfl allowed_runSample (by decide) hcutoff (by decide)
    fun _ => Option.some_ne_none Searcher.branchAndBound

end Draft

end SolverClient
