import SolverClient.Engine.Solve
import SolverClient.Proofs.Model.Document

/-!
# Replies that report a failure

A reply whose status is a text other than that of success reports a failure (`Reply.Failed`). A call to solve gives that
failure (`Draft.answer_solve_of_failed`), and its content is read neither as solutions nor as explanations
(`Reply.views_of_failed`).

The current model alone is read from the content whatever the status (`Engine.answer_currentModel_eq_ok`). A reply
without content is its own content, and nothing in the document of a model has to be there, so that a reply with a status
and a message is read as the empty model (`Model.ofFields_of_absent`). What comes of a reply that reports a failure is put
together in `Engine.outcomes_of_failed`.
-/

namespace SolverClient

/-! ## Answers of exchanges -/

/-- What comes of an exchange that goes on with its outcome. -/
@[simp]
theorem Exchange.answer_andThen {α β : Type} (x : Exchange α) (f : α → Except EngineError β) (a : Answer) :
    (x.andThen f).answer a = (x.answer a).bind f := by
  cases x with
  | failed e => rfl
  | send r read => cases a <;> rfl

/-- A draft with a search and a positive limit has a final document, which names the search. -/
theorem Draft.toFields_withSearch (d : Draft) (searcher : Searcher) {limit : Nat} (cutoff : Option Cutoff)
    (hlimit : 1 ≤ limit) : (d.withSearch searcher limit cutoff).model.toFields true =
      .ok ((d.withSearch searcher limit cutoff).model.document (some searcher)) :=
  Model.toFields_eq (Nat.ne_of_gt hlimit) fun _ => Option.some_ne_none searcher

/-- **A call to solve sends the document** of the draft with the search of the call, and reads the solutions of the
reply. -/
theorem Draft.snd_solve (d : Draft) (searcher : Searcher) {limit : Nat} (cutoff : Option Cutoff) (hlimit : 1 ≤ limit) :
    (d.solve searcher limit cutoff).2 = .send
      (.post "model" (.obj ((d.withSearch searcher limit cutoff).model.document (some searcher)))) solutionsOf := by
  simp only [solve, if_neg (Nat.ne_of_gt hlimit), Engine.submit, Engine.handOver,
    d.toFields_withSearch searcher cutoff hlimit]
  rfl

/-! ## Failures -/

/-- The reply reports a failure: its status is a text, and not that of success. -/
def Reply.Failed (r : Reply) : Prop := ∃ status, r.payload.get? "status" = some (.str status) ∧ status ≠ okStatus

section Failed

variable {r : Reply} (h : r.Failed)
include h

theorem Reply.isOk_of_failed : r.isOk = false := by
  obtain ⟨status, hget, hne⟩ := h
  have hstatus : r.status = status := by simp [Reply.status, string?, hget, Json.asString?]
  rw [isOk, hstatus]
  exact beq_false_of_ne hne

/-- **No view of the reply reads its content.** -/
theorem Reply.views_of_failed : r.solutions = .ok none ∧ r.explanations = .ok none := by
  have hok := isOk_of_failed h
  constructor
  · simp [solutions, hok]
  · simp [explanations, hok]

/-- **A call to solve gives the failure**, with the status, the message and the content of the reply. -/
theorem Draft.answer_solve_of_failed (d : Draft) (searcher : Searcher) {limit : Nat} (cutoff : Option Cutoff)
    (hlimit : 1 ≤ limit) : (d.solve searcher limit cutoff).2.answer (.ok r.payload) =
      .error (.solver r.status r.message r.content) := by
  rw [snd_solve d searcher cutoff hlimit, Exchange.answer, solutionsOf, Reply.isOk_of_failed h]
  rfl

/-- So does a call for one solution. -/
theorem Draft.answer_solveOne_of_failed (d : Draft) (searcher : Searcher) (cutoff : Option Cutoff) :
    (d.solveOne searcher cutoff).2.answer (.ok r.payload) = .error (.solver r.status r.message r.content) := by
  simp only [solveOne, Exchange.answer_andThen, answer_solve_of_failed h d searcher cutoff (Nat.le_refl 1)]
  rfl

end Failed

/-! ## The current model -/

/-- The current model is that of the content, whatever the status. -/
theorem Engine.answer_currentModel_eq_ok {r : Reply} {m : Model} :
    currentModel.answer (.ok r.payload) = .ok m ↔ ∃ doc, r.content = .obj doc ∧ Model.ofFields doc = .ok m := by
  simp only [currentModel, Exchange.answer]
  cases hc : r.content with
  | obj doc => cases hm : Model.ofFields doc <;> simp [Json.fieldsOf, hm]
  | _ => simp [Json.fieldsOf]

namespace Model

/-- The keys that the document of a model may have. -/
def keys : List String :=
  ["var", "constraint", "specific", "solution_limit", "searcher", "cutoff", "meta_cutoff", "callback_url"]

theorem entriesOf_of_get?_none {α : Type} {d : Fields} {key : String} (read : Fields → Except ModelError α)
    (h : d.get? key = none) : entriesOf d key read = .ok [] := by
  have harray : d.arrayOrEmpty key = .ok [] := by
    rw [Fields.arrayOrEmpty, Fields.optional_of_get?_none h]
    rfl
  simp [entriesOf, harray]

/-- **A document without any of the keys is that of the empty model.** -/
theorem ofFields_of_absent {d : Fields} (h : ∀ key ∈ keys, d.get? key = none) : ofFields d = .ok empty := by
  have hvars := entriesOf_of_get?_none Variable.ofFields (h "var" (by simp [keys]))
  have hconstraints := entriesOf_of_get?_none (Constraint.ofFields (arrange [])) (h "constraint" (by simp [keys]))
  have hobjectives := entriesOf_of_get?_none (Objective.ofFields (arrange [])) (h "specific" (by simp [keys]))
  have hlimit : limitOf d = .ok 1 := by
    have hnone : d.integer? "solution_limit" = .ok none := Fields.optional_of_get?_none (h _ (by simp [keys]))
    simp [limitOf, hnone]
  have hsearcher : searcherOf d = .ok none := by
    simp [searcherOf, Fields.string?_of_get?_none (h "searcher" (by simp [keys]))]
  have hcutoff : cutoffOf d = .ok none := by
    simp [cutoffOf, h "cutoff" (by simp [keys]), h "meta_cutoff" (by simp [keys])]
  have hcallback := Fields.string?_of_get?_none (h "callback_url" (by simp [keys]))
  simp only [ofFields, hvars, hconstraints, hobjectives, hlimit, hsearcher, hcutoff, hcallback, Except.ok_bind]
  rfl

end Model

/-- A reply without content and without any key of a model is read as the empty model. -/
theorem Engine.answer_currentModel_of_absent {r : Reply} {doc : Fields} (hp : r.payload = .obj doc)
    (hcontent : doc.get? "content" = none) (hkeys : ∀ key ∈ Model.keys, doc.get? key = none) :
    currentModel.answer (.ok r.payload) = .ok .empty := by
  refine answer_currentModel_eq_ok.2 ⟨doc, ?_, Model.ofFields_of_absent hkeys⟩
  simp [Reply.content, hp, Json.get?, Json.asFields?, hcontent]

/-! ## All commands -/

/-- **What comes of a reply that reports a failure.** Calls to solve give the failure, and no solutions or explanations
are read. The current model is read from the content all the same, if it is the document of a model, and a reply without
content and without any key of a model passes for the empty one. -/
theorem Engine.outcomes_of_failed {r : Reply} (h : r.Failed) :
    (∀ (d : Draft) (searcher : Searcher) (limit : Nat) (cutoff : Option Cutoff), 1 ≤ limit →
      (d.solve searcher limit cutoff).2.answer (.ok r.payload) = .error (.solver r.status r.message r.content) ∧
        (d.solveOne searcher cutoff).2.answer (.ok r.payload) = .error (.solver r.status r.message r.content)) ∧
    r.solutions = .ok none ∧ r.explanations = .ok none ∧
    (∀ m, currentModel.answer (.ok r.payload) = .ok m ↔ ∃ doc, r.content = .obj doc ∧ Model.ofFields doc = .ok m) ∧
    ∀ doc : Fields, r.payload = .obj doc → (∀ key ∈ "content" :: Model.keys, doc.get? key = none) →
      currentModel.answer (.ok r.payload) = .ok .empty := by
  obtain ⟨hsolutions, hexplanations⟩ := Reply.views_of_failed h
  refine ⟨fun d searcher limit cutoff hlimit => ⟨?_, ?_⟩, hsolutions, hexplanations, fun m => ?_, fun doc hp hkeys => ?_⟩
  · exact Draft.answer_solve_of_failed h d searcher cutoff hlimit
  · exact Draft.answer_solveOne_of_failed h d searcher cutoff
  · exact answer_currentModel_eq_ok
  · obtain ⟨hcontent, hkeys⟩ := List.forall_mem_cons.1 hkeys
    exact answer_currentModel_of_absent hp hcontent hkeys

/-- A failure with a content that is no model. -/
def unsatisfiableReply : Reply :=
  ⟨.obj [("status", .str "Error"), ("message", .str "Model is unsatisfiable"), ("content", .arr [])]⟩

theorem Engine.outcomes_of_failed_unsatisfiable :
    (∀ d : Draft, (d.solve .depthFirst 3 none).2.answer (.ok unsatisfiableReply.payload) =
      .error (.solver "Error" "Model is unsatisfiable" (.arr []))) ∧
    unsatisfiableReply.solutions = .ok none ∧ unsatisfiableReply.explanations = .ok none ∧
    ∀ m, currentModel.answer (.ok unsatisfiableReply.payload) ≠ .ok m := by
  obtain ⟨hsolve, hsolutions, hexplanations, hcurrent, -⟩ :=
    Engine.outcomes_of_failed (r := unsatisfiableReply) ⟨"Error", rfl, by decide⟩
  refine ⟨fun d => (hsolve d .depthFirst 3 none (by decide)).1, hsolutions, hexplanations, fun m hm => ?_⟩
  obtain ⟨doc, hdoc, -⟩ := (hcurrent m).1 hm
  cases hdoc

/-- A failure without a content. -/
def noModelReply : Reply := ⟨.obj [("status", .str "Error"), ("message", .str "no model loaded")]⟩

/-- **A failure passes for the empty model.** -/
theorem Engine.currentModel_of_noModelReply :
    noModelReply.Failed ∧ currentModel.answer (.ok noModelReply.payload) = .ok .empty := by
  refine ⟨⟨"Error", rfl, by decide⟩, ?_⟩
  exact answer_currentModel_of_absent rfl rfl (by decide)

end SolverClient
