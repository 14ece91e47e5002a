import SolverClient.Proofs.Constraint.Build

/-!
# Constraints come back from their documents

A constraint is read back from its own fields however it came about (`Constraint.ofFields_toFields_of_made_or_read`). One
that was made from the variables of a model needs names that tell them apart, a finite exponent and a second branch that
can be kept; one that was read before needs nothing, since reading has settled all that.

The word for a branch that is not there stands in the same field as the text of a branch that is. A second branch that is
that word, or empty, is therefore lost on the way, and every other one is kept
(`Constraint.ofFields_toFields_ifThenElse`).
-/

namespace SolverClient

/-- The text of a conditional with two branches is longer than that with the first one only. -/
theorem Demand.compose_some_ne_none (condition thenBranch elseBranch : String) :
    compose condition thenBranch (some elseBranch) ≠ compose condition thenBranch none := by
  intro h
  have hlength := congrArg String.length h
  have hopening : ("(" : String).length = 1 := rfl
  simp only [compose, String.length_append] at hlength
  omega

namespace Constraint

/-! ## Made or read before -/

section RoundTrip

variable {vars : List Variable} {c : Constraint}

/-- **A constraint is read back, whether it was made or read before.** It was made from variables of which no two have
one name, with words for integers, a finite exponent and a second branch that is kept; or it was read from a document
that a text can hold, over any variables. -/
theorem ofFields_toFields_of_made_or_read
    (h : ((∀ v ∈ vars, v.InWords) ∧ (vars.map Variable.name).Nodup ∧ c.MadeFrom vars ∧ c.demand.IsFinite ∧
        c.demand.KeepsBranch) ∨
      ∃ d : Fields, (Json.obj d).WellFormed ∧ ofFields vars d = .ok c) :
    (Json.obj c.toFields).WellFormed ∧ ofFields vars c.toFields = .ok c := by
  rcases h with ⟨hw, hn, hmade, hf, hb⟩ | ⟨d, hd, hread⟩
  · have hwords := hmade.inWords hw
    have hresolved := hmade.resolvedIn (fun v hv => hv) hn
    exact ⟨wellFormed_toFields hwords, ofFields_toFields hresolved hwords hf hb⟩
  · obtain ⟨-, tag, -, hdescribes⟩ := ofFields_eq_ok.1 hread
    exact ⟨wellFormed_toFields hdescribes.inWords,
      ofFields_toFields hdescribes.resolvedIn hdescribes.inWords (hdescribes.isFinite hd) hdescribes.keepsBranch⟩

/-- A matrix of two rows and three columns. -/
def gridSample : Variable :=
  ⟨"MATRIX$2$3$grid", .integer, .matrix 2 3 .standard, .unrestricted, .standard, Variable.noOrder⟩

/-- The last two columns of the matrix differ, under a name and over another kind of values, which changes nothing. -/
def cornerSample : Constraint :=
  ((unnamed (.distinct "MATRIX$2$3$grid" (.slice 3 0 1 1 2))).withName "corner").withKind .float

/-- A conditional whose name is null and whose second branch is there and empty. -/
def emptyBranchDocument : Fields :=
  [("name", .null), ("type", .str "rel"), ("subtype", .str "ite"), ("ite_condition", .str "x > 0"),
    ("ite_then", .str "x > 1"), ("ite_else", .str ""), ("varset", .str "Float")]

/-- What that document says. -/
def emptyBranchSample : Constraint := ⟨none, .conditional "x > 0" "x > 1" none .float⟩

theorem ofFields_toFields_of_made_or_read_samples :
    ((Json.obj cornerSample.toFields).WellFormed ∧ ofFields [gridSample] cornerSample.toFields = .ok cornerSample) ∧
      (Json.obj emptyBranchSample.toFields).WellFormed ∧
        ofFields [] emptyBranchSample.toFields = .ok emptyBranchSample := by
  constructor
  · have hgrid : gridSample ∈ [gridSample] := List.mem_singleton.2 rfl
    have hwords : ∀ v ∈ [gridSample], v.InWords := by
      intro v hv
      obtain rfl := List.mem_singleton.1 hv
      exact ⟨by decide, by decide, by decide, fun n hn => by cases hn⟩
    have hmade : cornerSample.MadeFrom [gridSample] :=
      .withKind _ (.withName _ (@MadeFrom.distinctSlice _ gridSample 0 1 1 2 _ hgrid rfl))
    exact ofFields_toFields_of_made_or_read (Or.inl ⟨hwords, by decide, hmade, trivial, trivial⟩)
  · exact ofFields_toFields_of_made_or_read (Or.inr ⟨emptyBranchDocument, by simp [emptyBranchDocument], rfl⟩)

end RoundTrip

/-! ## Second branches -/

section Branches

variable (vars : List Variable)

/-- A conditional is read back with the second branch that its field can show. -/
theorem ofFields_toFields_conditional (name : Option String) (condition thenBranch : String) (elseBranch : Option String)
    (kind : ValueKind) :
    ofFields vars (toFields ⟨name, .conditional condition thenBranch elseBranch kind⟩) =
      .ok ⟨name, .conditional condition thenBranch (elseBranch.filter fun s => s != "" && s != Demand.noBranch) kind⟩ := by
  have hshown : elseBranch.filter (fun s => s != "" && s != Demand.noBranch) =
      (some (elseBranch.getD Demand.noBranch)).filter fun s => s != "" && s != Demand.noBranch := by
    cases elseBranch with
    | none => simp [Option.filter]
    | some s => rfl
  refine ofFields_eq_ok.2 ⟨Fields.string?_of_ofString? get?_toFields_name, "rel", Fields.string_of_get? rfl, ?_⟩
  exact .conditional (Fields.string?_of_get? rfl) (by simp [ValueKind.ofSetName_tag]) (Fields.string?_of_get? rfl)
    (Fields.string?_of_get? rfl) hshown (Fields.string_of_get? rfl) (Fields.string_of_get? rfl)

/-- **A second branch is kept unless it is empty or the word for none.** Then the conditional is read back as the one
without it, which stands for another expression. -/
theorem ofFields_toFields_ifThenElse (condition thenBranch elseBranch : Expression) (kind : ValueKind) :
    ∃ back, ofFields vars ((ifThenElse condition thenBranch elseBranch).withKind kind).toFields = .ok back ∧
      (elseBranch.text ∉ ["", "None"] → back = (ifThenElse condition thenBranch elseBranch).withKind kind) ∧
      (elseBranch.text ∈ ["", "None"] → back = (ifThen condition thenBranch).withKind kind ∧
        back.expression? ≠ ((ifThenElse condition thenBranch elseBranch).withKind kind).expression?) := by
  refine ⟨_, ofFields_toFields_conditional vars none condition.text thenBranch.text (some elseBranch.text) kind, ?_, ?_⟩
  · intro hkept
    simp only [List.mem_cons, List.not_mem_nil, or_false, not_or] at hkept
    have hshown : (some elseBranch.text).filter (fun s => s != "" && s != Demand.noBranch) = some elseBranch.text := by
      simp [Option.filter, Demand.noBranch, hkept]
    rw [hshown]
    rfl
  · intro hlost
    have hshown : (some elseBranch.text).filter (fun s => s != "" && s != Demand.noBranch) = none := by
      rcases List.mem_pair.1 hlost with h | h <;> simp [Option.filter, Demand.noBranch, h]
    rw [hshown]
    refine ⟨rfl, fun h => ?_⟩
    have htext := Expression.leaf.inj (Option.some.inj h)
    exact Demand.compose_some_ne_none condition.text thenBranch.text elseBranch.text htext.symm

/-- A variable whose name is the word for a branch that is not there. -/
def noneSample : Variable := ⟨"None", .boolean, .scalar, .unrestricted, .standard, Variable.noOrder⟩

/-- **The branch that demands this variable is lost.** -/
theorem elseBranch_lost_of_none :
    ofFields [noneSample] (ifThenElse (.leaf "x > 1") (.leaf "x > 2") noneSample.expression).toFields =
        .ok (ifThen (.leaf "x > 1") (.leaf "x > 2")) ∧
      (ifThen (.leaf "x > 1") (.leaf "x > 2")).demand ≠
        (ifThenElse (.leaf "x > 1") (.leaf "x > 2") noneSample.expression).demand := by
  constructor
  · exact ofFields_toFields_conditional [noneSample] none "x > 1" "x > 2" (some "None") .integer
  · intro h
    cases h

end Branches

end Constraint

end SolverClient
