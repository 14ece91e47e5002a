import SolverClient.Proofs.Engine.InWords
import SolverClient.Proofs.Model.Run

/-!
# Solving leaves no trace

A caller builds a model and has it solved now and then (`Session.run`), with counts in words. A call to solve changes how
to search and nothing else of the draft, also if it has to give up (`Draft.withoutSearch_solveInWords`), and no step of
building looks at how to search (`Session.withoutSearch_step`). So the draft is, up to the search, that of the same run
without its calls to solve (`Session.withoutSearch_run`), and what the next call sends is the document of that draft with
the search of the call. It sends nothing only if a matrix has more cells than can be counted
(`Session.solve_free_of_history`).
-/

namespace SolverClient

/-! ## Drafts up to the search -/

/-- A fresh name depends on the names of the constraints only. -/
theorem Model.freshName_congr {m m' : Model} (h : m.constraints = m'.constraints) (attempts : Nat) (source : NameSource) :
    m.freshName attempts source = m'.freshName attempts source := by
  have htaken : m.hasConstraintNamed = m'.hasConstraintNamed := by
    funext name
    rw [hasConstraintNamed, hasConstraintNamed, h]
  induction attempts generalizing source with
  | zero => rfl
  | succ attempts ih => simp only [freshName, htaken, ih]

namespace Draft

/-- The draft with nothing said about how to search. -/
def withoutSearch (d : Draft) : Draft := d.modify fun m => { m with searcher := none, cutoff := none, limit := 1 }

variable {d d' : Draft}

theorem withoutSearch_eq_iff : d.withoutSearch = d'.withoutSearch ↔
    d.model.vars = d'.model.vars ∧ d.model.constraints = d'.model.constraints ∧
      d.model.objectives = d'.model.objectives ∧ d.model.callback = d'.model.callback ∧ d.names = d'.names := by
  obtain ⟨⟨vars, constraints, objectives, searcher, cutoff, callback, limit⟩, names⟩ := d
  obtain ⟨⟨vars', constraints', objectives', searcher', cutoff', callback', limit'⟩, names'⟩ := d'
  simp [withoutSearch, modify, and_assoc]

/-- A search that is said replaces the one that was said before. -/
theorem withSearch_congr (h : d.withoutSearch = d'.withoutSearch) (searcher : Searcher) (limit : Nat)
    (cutoff : Option Cutoff) : d.withSearch searcher limit cutoff = d'.withSearch searcher limit cutoff :=
  congrArg (·.withSearch searcher limit cutoff) h

theorem withoutSearch_addConstraint (h : d.withoutSearch = d'.withoutSearch) (c : Constraint) :
    (d.addConstraint c).withoutSearch = (d'.addConstraint c).withoutSearch := by
  obtain ⟨hv, hc, ho, hu, hn⟩ := withoutSearch_eq_iff.1 h
  unfold addConstraint
  cases c.name with
  | some name => exact withoutSearch_eq_iff.2 ⟨hv, congrArg (· ++ [c]) hc, ho, hu, hn⟩
  | none =>
    have hfresh : d.model.freshName d.model.constraints.length d.names =
        d'.model.freshName d'.model.constraints.length d'.names := by
      rw [Model.freshName_congr hc, hc, hn]
    simp only [hfresh]
    exact withoutSearch_eq_iff.2 ⟨hv, congrArg (· ++ [_]) hc, ho, hu, rfl⟩

/-- **A call to build looks at nothing of the search.** -/
theorem withoutSearch_apply (h : d.withoutSearch = d'.withoutSearch) (call : Call) :
    (d.apply call).withoutSearch = (d'.apply call).withoutSearch := by
  obtain ⟨hv, hc, ho, hu, hn⟩ := withoutSearch_eq_iff.1 h
  cases call with
  | addVariable v => exact withoutSearch_eq_iff.2 ⟨congrArg (· ++ [v]) hv, hc, ho, hu, hn⟩
  | addConstraint c => exact withoutSearch_addConstraint h c
  | addObjective o => exact withoutSearch_eq_iff.2 ⟨hv, hc, congrArg (· ++ [o]) ho, hu, hn⟩
  | setCallback url => exact withoutSearch_eq_iff.2 ⟨hv, hc, ho, rfl, hn⟩
  | setSearcher s => exact h
  | setCutoff c => exact h
  | clearCutoff => exact h
  | setLimit limit => exact h

/-- **A call to solve changes nothing but the search.** -/
theorem withoutSearch_solveInWords (d : Draft) (searcher : Searcher) (limit : Nat) (cutoff : Option Cutoff) :
    (d.solveInWords searcher limit cutoff).1.withoutSearch = d.withoutSearch := by
  unfold solveInWords
  split
  · rfl
  · rfl

end Draft

/-! ## Sessions -/

/-- What a caller does next. A call to solve comes with what the line gives if anything is sent. -/
inductive Step where
  | build (call : Call)
  /-- Declares a variable, which may be refused. -/
  | declare (declaration : Declaration)
  /-- Adds a constraint, the making of which may have been refused. -/
  | constrain (made : Except ModelError Constraint)
  | solve (searcher : Searcher) (limit : Nat) (cutoff : Option Cutoff) (answer : Answer)
  | solveOne (searcher : Searcher) (cutoff : Option Cutoff) (answer : Answer)

/-- The step is a call to solve. -/
def Step.solves : Step → Bool
  | solve .. => true
  | solveOne .. => true
  | _ => false

/-- A draft, the requests that were sent and what came of each call to solve, which is nothing if the client had to give
up. -/
structure Session where
  draft : Draft
  sent : List Request := []
  outcomes : List (Option (Except EngineError (List Solution))) := []

namespace Session

/-- The session after an exchange that leaves a draft. -/
def perform (s : Session) (d : Draft) (x : CountedExchange (List Solution)) (answer : Answer) : Session :=
  ⟨d, s.sent ++ x.request?.toList, s.outcomes ++ [x.answer answer]⟩

/-- The session after a step. What is refused changes nothing. -/
def step (s : Session) : Step → Session
  | .build call => { s with draft := s.draft.apply call }
  | .declare declaration =>
    match s.draft.declare declaration with
    | .ok (_, d) => { s with draft := d }
    | .error _ => s
  | .constrain (.ok c) => { s with draft := s.draft.addConstraint c }
  | .constrain (.error _) => s
  | .solve searcher limit cutoff answer =>
    let (d, x) := s.draft.solveInWords searcher limit cutoff
    s.perform d x answer
  | .solveOne searcher cutoff answer =>
    let (d, x) := s.draft.solveOneInWords searcher cutoff
    s.perform d (x.andThen fun solution => some (.ok solution.toList)) answer

/-- The session after a run of steps. -/
def run (s : Session) (steps : List Step) : Session := steps.foldl step s

variable {s s' : Session}

theorem withoutSearch_of_solves {step : Step} (h : step.solves = true) :
    (s.step step).draft.withoutSearch = s.draft.withoutSearch := by
  cases step with
  | solve searcher limit cutoff answer => exact s.draft.withoutSearch_solveInWords searcher limit cutoff
  | solveOne searcher cutoff answer => exact s.draft.withoutSearch_solveInWords searcher 1 cutoff
  | _ => cases h

/-- **No step looks at the search that was said before it.** -/
theorem withoutSearch_step (h : s.draft.withoutSearch = s'.draft.withoutSearch) (step : Step) :
    (s.step step).draft.withoutSearch = (s'.step step).draft.withoutSearch := by
  cases step with
  | build call => exact Draft.withoutSearch_apply h call
  | declare declaration =>
    simp only [Session.step, Draft.declare]
    cases declaration.build with
    | error e => exact h
    | ok v => exact Draft.withoutSearch_apply h (.addVariable v)
  | constrain made =>
    cases made with
    | error e => exact h
    | ok c => exact Draft.withoutSearch_addConstraint h c
  | solve => rw [withoutSearch_of_solves rfl, withoutSearch_of_solves rfl, h]
  | solveOne => rw [withoutSearch_of_solves rfl, withoutSearch_of_solves rfl, h]

/-- **Up to the search, a run leaves the draft that it leaves without its calls to solve.** -/
theorem withoutSearch_run (h : s.draft.withoutSearch = s'.draft.withoutSearch) (steps : List Step) :
    (s.run steps).draft.withoutSearch = (s'.run (steps.filter (!·.solves))).draft.withoutSearch := by
  induction steps generalizing s s' with
  | nil => exact h
  | cons step steps ih =>
    cases hsolves : step.solves with
    | true =>
      rw [List.filter_cons_of_neg (by simp [hsolves])]
      exact ih ((withoutSearch_of_solves hsolves).trans h)
    | false =>
      rw [List.filter_cons_of_pos (by simp [hsolves])]
      exact ih (withoutSearch_step h step)

end Session

/-! ## The next call -/

/-- The models agree in all but how to search. -/
structure Model.SameProblem (m m' : Model) : Prop where
  vars : m.vars = m'.vars
  constraints : m.constraints = m'.constraints
  objectives : m.objectives = m'.objectives
  callback : m.callback = m'.callback

/-- The document is the final one of the model, but searched in the given way: under the search, for as many solutions
and with just the cutoff, which stands under the key of its kind. -/
structure Model.SearchedAs (m : Model) (searcher : Searcher) (limit : Nat) (cutoff : Option Cutoff) (doc : Fields) :
    Prop where
  final : toFieldsInWords? { m with searcher := some searcher, limit, cutoff } true = some (.ok doc)
  searcher : doc.get? "searcher" = some (.str searcher.tag)
  limit : doc.get? "solution_limit" = some (.int limit)
  plainCutoff : doc.get? "cutoff" = (cutoff.filter fun c => !c.isComposed).map fun c => .obj c.toFields
  composedCutoff : doc.get? "meta_cutoff" = (cutoff.filter Cutoff.isComposed).map fun c => .obj c.toFields

theorem Model.SearchedAs.counted {m : Model} {searcher : Searcher} {limit : Nat} {cutoff : Option Cutoff} {doc : Fields}
    (h : m.SearchedAs searcher limit cutoff doc) : m.Counted :=
  fun v hv => counted_of_toFieldsInWords? h.final v hv

/-- The document of a draft with a search says that search. -/
theorem Draft.searchedAs_document {d : Draft} (h : d.model.Counted) (searcher : Searcher) {limit : Nat}
    (cutoff : Option Cutoff) (hlimit : 1 ≤ limit) :
    d.model.SearchedAs searcher limit cutoff
      ((d.withSearch searcher limit cutoff).model.document (some searcher)) where
  final := by
    have hwritten : (d.withSearch searcher limit cutoff).model.toFieldsInWords? true = _ :=
      Model.toFieldsInWords?_of_counted h
    rwa [d.toFields_withSearch searcher cutoff hlimit] at hwritten
  searcher := Model.get?_document_searcher _ _
  limit := Model.get?_document_limit _ _
  plainCutoff := (Model.get?_document_cutoff _ _).1
  composedCutoff := (Model.get?_document_cutoff _ _).2

namespace Session

/-- **A call to solve is free of history.** Let a run have any steps. If the cells of each matrix of the draft can be
counted, the call sends one request with the document of the draft, which is that of the same run without its calls to
solve, searched as the call says; if not, nothing is sent and the call comes to nothing. A limit of zero is refused, and
nothing is sent or changed. No call to solve changes more than the search, and a call for one solution sends what a call
with the limit one sends. -/
theorem solve_free_of_history (start : Session) (steps : List Step) (searcher : Searcher) (cutoff : Option Cutoff) :
    (∀ limit, 1 ≤ limit → (∀ v ∈ (start.run steps).draft.model.vars, v.layout.isMatrix = true → v.size < Word.bound64) →
      ∃ doc, (start.run steps).draft.model.SearchedAs searcher limit cutoff doc ∧
        (start.run (steps.filter (!·.solves))).draft.model.SearchedAs searcher limit cutoff doc ∧
        ∀ answer, ((start.run steps).step (.solve searcher limit cutoff answer)).sent =
          (start.run steps).sent ++ [.post "model" (.obj doc)]) ∧
    (∀ limit, 1 ≤ limit → (∃ v ∈ (start.run steps).draft.model.vars, v.layout.isMatrix = true ∧ Word.bound64 ≤ v.size) →
      ∀ answer, ((start.run steps).step (.solve searcher limit cutoff answer)).sent = (start.run steps).sent ∧
        ((start.run steps).step (.solve searcher limit cutoff answer)).outcomes =
          (start.run steps).outcomes ++ [none]) ∧
    (∀ answer, (start.run steps).step (.solve searcher 0 cutoff answer) =
      { start.run steps with
        outcomes := (start.run steps).outcomes ++ [some (.error (.model (.request .solveLimitZero)))] }) ∧
    (∀ step : Step, step.solves = true →
      ((start.run steps).step step).draft.model.SameProblem (start.run steps).draft.model) ∧
    (∀ answer, ((start.run steps).step (.solveOne searcher cutoff answer)).sent =
      ((start.run steps).step (.solve searcher 1 cutoff answer)).sent) := by
  have hbuilt := withoutSearch_run (s := start) rfl steps
  refine ⟨fun limit hlimit hcells => ?_, fun limit hlimit hcells answer => ?_, fun answer => ?_,
    fun step hsolves => ?_, fun answer => ?_⟩
  · refine ⟨_, Draft.searchedAs_document hcells searcher cutoff hlimit, ?_, fun answer => ?_⟩
    · have hvars := (Draft.withoutSearch_eq_iff.1 hbuilt).1
      rw [Draft.withSearch_congr hbuilt]
      refine Draft.searchedAs_document (fun v hv => hcells v ?_) searcher cutoff hlimit
      rwa [hvars]
    · simp only [step, perform, Draft.snd_solveInWords_of_counted hcells searcher cutoff hlimit]
      rfl
  · obtain ⟨v, hv, hmatrix, hsize⟩ := hcells
    have hcounted : ¬ (start.run steps).draft.model.Counted := fun h => Nat.not_lt.2 hsize (h v hv hmatrix)
    simp [step, perform, Draft.snd_solveInWords_of_not_counted hcounted searcher cutoff hlimit,
      CountedExchange.request?, CountedExchange.answer]
  · simp [step, perform, Draft.solveInWords, CountedExchange.request?, CountedExchange.answer]
  · obtain ⟨hv, hc, ho, hu, -⟩ := Draft.withoutSearch_eq_iff.1 (withoutSearch_of_solves (s := start.run steps) hsolves)
    exact ⟨hv, hc, ho, hu⟩
  · simp [step, perform, Draft.solveOneInWords]

/-- A matrix is declared, a call with a cutoff finds the line down, and a place for reports is added. -/
def historySample : List Step :=
  [.declare ((Declaration.matrix .integer "grid" 2 3).withBounds (.int 0) (.int 10)),
    .solve .restart 5 (some .fibonacci) (.error (.request "connection refused")), .build (.setCallback "progress")]

theorem solve_free_of_history_afterFailure :
    (∃ doc, (run { draft := {} } historySample).draft.model.SearchedAs .depthFirst 3 none doc ∧
      (run { draft := {} } (historySample.filter (!·.solves))).draft.model.SearchedAs .depthFirst 3 none doc ∧
      ∀ answer, ((run { draft := {} } historySample).step (.solve .depthFirst 3 none answer)).sent =
        (run { draft := {} } historySample).sent ++ [.post "model" (.obj doc)]) ∧
    ∀ answer, ((run { draft := {} } historySample).step (.solve .depthFirst 3 none answer)).draft.model.SameProblem
      (run { draft := {} } historySample).draft.model := by
  obtain ⟨hsent, -, -, hkept, -⟩ := solve_free_of_history { draft := {} } historySample .depthFirst none
  exact ⟨hsent 3 (by decide) (by decide), fun answer => hkept (.solve .depthFirst 3 none answer) rfl⟩

/-- A matrix is declared, with one cell more than words can count. -/
def squareSample : List Step := [.declare (.matrix .integer "m" 4294967296 4294967296)]

/-- **A run may lead to a call that sends nothing**: each declaration of it is accepted, but the model cannot be written. -/
theorem unsent_after_squareSample :
    (run { draft := {} } squareSample).draft.model.vars = [Variable.squareMatrix] ∧
    (∀ doc, ¬ (run { draft := {} } squareSample).draft.model.SearchedAs .depthFirst 1 none doc) ∧
    ∀ answer, ((run { draft := {} } squareSample).step (.solve .depthFirst 1 none answer)).sent = [] := by
  have hrun : run { draft := {} } squareSample = { draft := Draft.addVariable {} Variable.squareMatrix } := by
    simp [run, squareSample, step, Draft.declare, Variable.made_squareMatrix.1]
  have hcounted : ¬ (Draft.addVariable {} Variable.squareMatrix).model.Counted := by
    intro h
    exact absurd (h Variable.squareMatrix (List.mem_singleton_self _) rfl) (by decide)
  rw [hrun]
  refine ⟨rfl, fun doc h => hcounted h.counted, fun answer => ?_⟩
  simp [step, perform, Draft.snd_solveInWords_of_not_counted hcounted .depthFirst none (Nat.le_refl 1),
      CountedExchange.request?]

end Session

end SolverClient
