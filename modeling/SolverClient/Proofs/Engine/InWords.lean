import SolverClient.Engine.InWords
import SolverClient.Proofs.Engine.Failure
import SolverClient.Proofs.Model.InWords
import SolverClient.Proofs.Solution.InWords

/-!
# What commands with counts in words come to

A counted model is handed over as without bounds, and any other is not handed over
(`Engine.handOverInWords_of_counted`, `Engine.handOverInWords_of_not_counted`). The solutions of a reply are read as
without bounds unless they overflow (`Draft.solutionsInWords?_cases`). So a call to solve comes to what it comes to without
bounds, or to nothing, for one of these two reasons (`Draft.solveInWords_cases`). A reply that reports a failure has
nothing to count and is a failure of the call (`Draft.answer_solveInWords_of_failed`).
-/

namespace SolverClient

/-! ## Exchanges -/

namespace CountedExchange

variable {α β : Type}

/-- Going on with an outcome changes nothing of what is sent. -/
@[simp]
theorem request?_andThen (x : CountedExchange α) (f : α → Option (Except EngineError β)) :
    (x.andThen f).request? = x.request? := by
  cases x <;> rfl

end CountedExchange

/-! ## A model is handed over -/

namespace Engine

variable {m : Model}

theorem handOverInWords_of_counted (command : String) (h : m.Counted) :
    handOverInWords command m = .ofExchange (handOver command m) := by
  rw [handOverInWords, handOver, Model.toFieldsInWords?_of_counted h]
  cases m.toFields true <;> rfl

/-- **A model of which the cells cannot be counted is not handed over.** -/
theorem handOverInWords_of_not_counted (command : String) {doc : Fields} (h : ¬ m.Counted)
    (hdoc : m.toFields true = .ok doc) : handOverInWords command m = .overflow := by
  rw [handOverInWords, Model.toFieldsInWords?_of_not_counted h hdoc]

end Engine

/-! ## Calls to solve -/

namespace Draft

/-- **Reading solutions comes to nothing if they overflow**, and else to what it comes to without bounds. -/
theorem solutionsInWords?_cases (r : Reply) :
    (r.Overflows ∧ solutionsInWords? r = none) ∨ (¬ r.Overflows ∧ solutionsInWords? r = some (solutionsOf r)) := by
  obtain ⟨hnone, hsome⟩ := r.solutionsInWords?_exact
  by_cases h : r.Overflows
  · refine Or.inl ⟨h, ?_⟩
    rw [solutionsInWords?, if_pos h.1, hnone.2 h]
    rfl
  · refine Or.inr ⟨h, ?_⟩
    rw [solutionsInWords?, solutionsOf, hsome.2 h]
    cases r.isOk with
    | false => rfl
    | true => cases r.solutions <;> rfl

variable {d : Draft} {limit : Nat}

theorem fst_solveInWords (d : Draft) (searcher : Searcher) (limit : Nat) (cutoff : Option Cutoff) :
    (d.solveInWords searcher limit cutoff).1 = (d.solve searcher limit cutoff).1 := by
  unfold solveInWords solve
  split <;> rfl

/-- **A call to solve sends the document of a counted model**, and reads the solutions of the reply. -/
theorem snd_solveInWords_of_counted (h : d.model.Counted) (searcher : Searcher) (cutoff : Option Cutoff)
    (hlimit : 1 ≤ limit) : (d.solveInWords searcher limit cutoff).2 = .send
      (.post "model" (.obj ((d.withSearch searcher limit cutoff).model.document (some searcher)))) solutionsInWords? := by
  have hcounted : (d.withSearch searcher limit cutoff).model.Counted := h
  simp only [solveInWords, if_neg (Nat.ne_of_gt hlimit), Engine.submitInWords,
    Engine.handOverInWords_of_counted "model" hcounted, Engine.handOver,
    d.toFields_withSearch searcher cutoff hlimit]
  rfl

/-- **It comes to nothing before anything is sent** if the cells of a matrix cannot be counted. -/
theorem snd_solveInWords_of_not_counted (h : ¬ d.model.Counted) (searcher : Searcher) (cutoff : Option Cutoff)
    (hlimit : 1 ≤ limit) : (d.solveInWords searcher limit cutoff).2 = .overflow := by
  have hcounted : ¬ (d.withSearch searcher limit cutoff).model.Counted := h
  have hoverflow := Engine.handOverInWords_of_not_counted "model" hcounted
    (d.toFields_withSearch searcher cutoff hlimit)
  simp only [solveInWords, if_neg (Nat.ne_of_gt hlimit), Engine.submitInWords, hoverflow]
  rfl

/-- **What a call to solve comes to.** It leaves the draft that it leaves without bounds. If the model is counted it sends
what it sends without bounds, and comes to the same outcome unless the solutions of the reply overflow; then, and if the
model is not counted, it comes to nothing. -/
theorem solveInWords_cases (d : Draft) (searcher : Searcher) (cutoff : Option Cutoff) (hlimit : 1 ≤ limit) :
    (d.solveInWords searcher limit cutoff).1 = (d.solve searcher limit cutoff).1 ∧
    (¬ d.model.Counted → (d.solveInWords searcher limit cutoff).2 = .overflow) ∧
    (d.model.Counted →
      (d.solveInWords searcher limit cutoff).2.request? = (d.solve searcher limit cutoff).2.request? ∧
      ∀ answer, (∃ r : Reply, answer = .ok r.payload ∧ r.Overflows ∧
          (d.solveInWords searcher limit cutoff).2.answer answer = none) ∨
        ((∀ r : Reply, answer = .ok r.payload → ¬ r.Overflows) ∧
          (d.solveInWords searcher limit cutoff).2.answer answer =
            some ((d.solve searcher limit cutoff).2.answer answer))) := by
  refine ⟨d.fst_solveInWords searcher limit cutoff, fun h => snd_solveInWords_of_not_counted h searcher cutoff hlimit,
    fun h => ?_⟩
  rw [snd_solveInWords_of_counted h searcher cutoff hlimit, snd_solve d searcher cutoff hlimit]
  refine ⟨rfl, fun answer => ?_⟩
  cases answer with
  | error e => exact Or.inr ⟨fun _ hr => (nomatch hr), rfl⟩
  | ok payload =>
    rcases solutionsInWords?_cases ⟨payload⟩ with ⟨hr, hread⟩ | ⟨hr, hread⟩
    · exact Or.inl ⟨⟨payload⟩, rfl, hr, hread⟩
    · refine Or.inr ⟨?_, hread⟩
      rintro ⟨_⟩ ⟨⟩
      exact hr

/-- **A reply that reports a failure is a failure** of the call, whatever there is to count in it. -/
theorem answer_solveInWords_of_failed {r : Reply} (hr : r.Failed) (h : d.model.Counted) (searcher : Searcher)
    (cutoff : Option Cutoff) (hlimit : 1 ≤ limit) : (d.solveInWords searcher limit cutoff).2.answer (.ok r.payload) =
      some (.error (.solver r.status r.message r.content)) := by
  obtain ⟨-, -, hcounted⟩ := solveInWords_cases d searcher cutoff hlimit
  rcases (hcounted h).2 (.ok r.payload) with ⟨⟨payload⟩, heq, hover, -⟩ | ⟨-, hanswer⟩
  · cases heq
    exact absurd hover.1 (ne_true_of_eq_false (Reply.isOk_of_failed hr))
  · rw [hanswer, answer_solve_of_failed hr d searcher cutoff hlimit]

end Draft

end SolverClient
