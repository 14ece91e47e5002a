import SolverClient.Constraint.Build
import SolverClient.Proofs.Constraint.Document

/-!
# Conditionals and their parts

A document says a conditional twice: by its parts, and by the expression composed of them. The reader looks at a few
keys only (`Demand.conditionalKeys`), the expression not among them, so that what is read does not depend on it
(`Constraint.ofFields_congr_of_conditional`); and what is written has the expression that its own parts compose, which
is the one that the constraint stands for (`Constraint.composed_of_parts`).
-/

namespace SolverClient

/-! ## What the reader looks at -/

namespace Fields

/-- The fields show the parts of a conditional, and the expression composed of them. -/
structure ShowsParts (d : Fields) (hasElse : Bool) (condition thenBranch elseBranch expr : String) : Prop where
  hcondition : d.get? "ite_condition" = some (.str condition)
  hthen : d.get? "ite_then" = some (.str thenBranch)
  helse : d.get? "ite_else" = some (.str elseBranch)
  hexpr : d.get? "expr" = some (.str expr)
  both : hasElse = true →
    expr = "(" ++ condition ++ " & " ++ thenBranch ++ ") | (!(" ++ condition ++ ") & " ++ elseBranch ++ ")"
  first : hasElse = false → expr = condition ++ " & " ++ thenBranch ∧ elseBranch = "None"

end Fields

namespace Demand

variable {vars : List Variable} {d e : Fields}

/-- The keys of a document that the reader of a conditional looks at. -/
def conditionalKeys : List String := ["name", "type", "subtype", "varset", "ite_condition", "ite_then", "ite_else"]

/-- The reader of a conditional. -/
theorem relationOf_of_conditional (hsub : d.string? "subtype" = .ok (some "ite")) : relationOf d = do
    let set ← d.string? "varset"
    let branch ← d.string? "ite_else"
    return conditional (← d.string "ite_condition") (← d.string "ite_then")
      (branch.filter fun s => s != "" && s != noBranch) ((set.map ValueKind.ofSetName).getD .integer) := by
  simp [relationOf, hsub]

/-- Documents that agree on those keys say the same conditional, or are refused for the same reason. -/
theorem relationOf_congr (hsub : d.string? "subtype" = .ok (some "ite"))
    (h : ∀ key ∈ conditionalKeys, e.get? key = d.get? key) : relationOf e = relationOf d := by
  have hstring? : ∀ key ∈ conditionalKeys, e.string? key = d.string? key := fun key hkey =>
    Fields.optional_of_get?_eq (h key hkey)
  have hstring : ∀ key ∈ conditionalKeys, e.string key = d.string key := fun key hkey =>
    Fields.required_of_get?_eq (h key hkey)
  have hsub' : e.string? "subtype" = .ok (some "ite") := by rw [hstring? _ (by decide), hsub]
  rw [relationOf_of_conditional hsub, relationOf_of_conditional hsub', hstring? "varset" (by decide),
    hstring? "ite_else" (by decide), hstring "ite_condition" (by decide), hstring "ite_then" (by decide)]

/-- What such a document says is the conditional of its parts. -/
theorem exists_conditional_of_describes {c : Demand} (hsub : d.string? "subtype" = .ok (some "ite"))
    (h : Describes vars d "rel" c) : ∃ condition thenBranch elseBranch kind,
      d.get? "ite_condition" = some (.str condition) ∧ d.get? "ite_then" = some (.str thenBranch) ∧
      c = conditional condition thenBranch elseBranch kind := by
  rw [← ofFields_eq_ok, ofFields_rel, relationOf_of_conditional hsub] at h
  simp only [Except.bind_eq_ok, Except.pure_eq_ok] at h
  obtain ⟨set, -, branch, -, condition, hc, thenBranch, ht, rfl⟩ := h
  exact ⟨condition, thenBranch, _, _, Fields.string_eq_ok.1 hc, Fields.string_eq_ok.1 ht, rfl⟩

end Demand

namespace Constraint

section Reader

variable {vars : List Variable} {d e : Fields}

/-- **The reader of a conditional looks at its keys only**, in what it accepts and in what it refuses. -/
theorem ofFields_congr_of_conditional (htype : d.get? "type" = some (.str "rel"))
    (hsub : d.get? "subtype" = some (.str "ite")) (h : ∀ key ∈ Demand.conditionalKeys, e.get? key = d.get? key) :
    ofFields vars e = ofFields vars d := by
  have htag : ∀ d' : Fields, d'.get? "type" = some (.str "rel") → ofFields vars d' = do
      let demand ← Demand.relationOf d'
      return ⟨← d'.string? "name", demand⟩ := by
    intro d' htype'
    simp [ofFields, Fields.string_of_get? htype', Demand.ofFields_rel]
  have hname : e.string? "name" = d.string? "name" := Fields.optional_of_get?_eq (h _ (by decide))
  rw [htag d htype, htag e (by rw [h _ (by decide), htype]), hname,
    Demand.relationOf_congr (Fields.string?_of_get? hsub) h]

/-- A document of a conditional is read alike with any expression and without one. -/
theorem ofFields_replace_expr (htype : d.get? "type" = some (.str "rel"))
    (hsub : d.get? "subtype" = some (.str "ite")) :
    (∀ v, ofFields vars (d.insert "expr" v) = ofFields vars d) ∧
      ofFields vars (d.filter fun entry => entry.1 != "expr") = ofFields vars d := by
  have hne : ∀ key ∈ Demand.conditionalKeys, key ≠ "expr" := by decide
  constructor
  · intro v
    refine ofFields_congr_of_conditional htype hsub fun key hkey => ?_
    rw [OrderedMap.get?_insert, if_neg (hne key hkey)]
  · refine ofFields_congr_of_conditional htype hsub fun key hkey => ?_
    rw [OrderedMap.get?_filter (· != "expr"), if_pos (bne_iff_ne.2 (hne key hkey))]

end Reader

/-! ## What is written -/

variable {c : Constraint} {condition thenBranch : String} {elseBranch : Option String} {kind : ValueKind}

/-- The fields of a conditional show its parts, and the expression of the constraint. -/
theorem showsParts_toFields (h : c.demand = .conditional condition thenBranch elseBranch kind) :
    ∃ last expr, Fields.ShowsParts c.toFields elseBranch.isSome condition thenBranch last expr ∧
      c.expression? = some (.leaf expr) := by
  refine ⟨elseBranch.getD Demand.noBranch, Demand.compose condition thenBranch elseBranch, ?_, ?_⟩
  · have hparts : ∀ key ≠ "name", c.toFields.get? key =
        (Demand.conditional condition thenBranch elseBranch kind).toFields.get? key := by
      intro key hkey
      rw [get?_toFields hkey, h]
    cases elseBranch with
    | none => exact ⟨hparts _ (by decide), hparts _ (by decide), hparts _ (by decide), hparts _ (by decide), nofun,
        fun _ => ⟨rfl, rfl⟩⟩
    | some last => exact ⟨hparts _ (by decide), hparts _ (by decide), hparts _ (by decide), hparts _ (by decide),
        fun _ => rfl, nofun⟩
  · simp [expression?, h, Demand.expressionText?]

/-- **A conditional is read from its parts, and written with the expression that they compose.** A document of a
conditional is read alike with any expression and without one, as a conditional of its own condition and first branch. A
conditional, however it came about, has the composed expression in its fields and for its own. -/
theorem composed_of_parts (vars : List Variable) :
    (∀ d : Fields, d.get? "type" = some (.str "rel") → d.get? "subtype" = some (.str "ite") →
      (∀ v, ofFields vars (d.insert "expr" v) = ofFields vars d) ∧
      ofFields vars (d.filter fun entry => entry.1 != "expr") = ofFields vars d ∧
      ∀ c, ofFields vars d = .ok c → ∃ condition thenBranch elseBranch kind,
        d.get? "ite_condition" = some (.str condition) ∧ d.get? "ite_then" = some (.str thenBranch) ∧
        c.demand = .conditional condition thenBranch elseBranch kind) ∧
    ∀ (c : Constraint) (condition thenBranch : String) (elseBranch : Option String) (kind : ValueKind),
      c.demand = .conditional condition thenBranch elseBranch kind →
        ∃ last expr, Fields.ShowsParts c.toFields elseBranch.isSome condition thenBranch last expr ∧
          c.expression? = some (.leaf expr) := by
  refine ⟨fun d htype hsub => ?_, fun c condition thenBranch elseBranch kind h => showsParts_toFields h⟩
  obtain ⟨hinsert, hfilter⟩ := ofFields_replace_expr htype hsub
  refine ⟨hinsert, hfilter, fun c hc => ?_⟩
  obtain ⟨-, tag, htag, hdescribes⟩ := ofFields_eq_ok.1 hc
  have htag' := Fields.string_of_get? htype
  rw [htag] at htag'
  cases htag'
  exact Demand.exists_conditional_of_describes (Fields.string?_of_get? hsub) hdescribes

/-- A conditional with two branches, and a number in the place of its expression. -/
def misleadingDocument : Fields :=
  [("type", .str "rel"), ("subtype", .str "ite"), ("expr", .int 3), ("ite_condition", .str "x"), ("ite_then", .str "y"),
    ("ite_else", .str "z")]

/-- What that document says. -/
def misleadingSample : Constraint := ⟨none, .conditional "x" "y" (some "z") .integer⟩

theorem composed_of_parts_misleadingDocument :
    ofFields [] misleadingDocument = .ok misleadingSample ∧
    ofFields [] (misleadingDocument.insert "expr" (.str "w")) = .ok misleadingSample ∧
    ofFields [] (misleadingDocument.filter fun entry => entry.1 != "expr") = .ok misleadingSample ∧
    (∃ last expr, Fields.ShowsParts misleadingSample.toFields true "x" "y" last expr) ∧
    ∃ last expr,
      Fields.ShowsParts ((ifThen (.leaf "x") (.leaf "y")).withKind .boolean).toFields false "x" "y" last expr := by
  have hread : ofFields [] misleadingDocument = .ok misleadingSample := rfl
  obtain ⟨hinsert, hfilter, -⟩ := (composed_of_parts []).1 misleadingDocument rfl rfl
  have hwritten := (composed_of_parts []).2
  obtain ⟨last, expr, hshown, -⟩ := hwritten misleadingSample "x" "y" (some "z") .integer rfl
  obtain ⟨last', expr', hshown', -⟩ :=
    hwritten ((ifThen (.leaf "x") (.leaf "y")).withKind .boolean) "x" "y" none .boolean rfl
  exact ⟨hread, (hinsert _).trans hread, hfilter.trans hread, ⟨last, expr, hshown⟩, last', expr', hshown'⟩

end Constraint

end SolverClient
