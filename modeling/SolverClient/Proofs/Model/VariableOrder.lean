import Mathlib.Data.List.Perm.Basic
import SolverClient.Proofs.Model.Document

/-!
# The order of variables in a document

A reader orders the variables of a document by their layout (`Model.inOrder_arrange`) and then looks them up by their
names, where the first one of a name counts. If no two have the same name then the first one is the only one, and every
order of the same variables resolves the names alike (`Variable.find?_of_perm`). Constraints and objectives know the
variables through these names only (`Constraint.ofFields_eq_of_find?`, `Objective.ofFields_eq_of_find?`), so documents
that list the same variables in another order (`Fields.Reordered`) are read as the same model but for the order of
variables of one layout (`Model.ofFields_of_reordered`).
-/

namespace SolverClient

/-! ## Names that resolve alike -/

section Resolving

variable {vars vars' : List Variable}

/-- **Variables with distinct names are found in any order alike.** -/
theorem Variable.find?_of_perm (hp : vars.Perm vars') (hn : (vars.map Variable.name).Nodup) :
    find? vars = find? vars' := by
  have hn' : (vars'.map Variable.name).Nodup := (hp.map _).nodup_iff.1 hn
  funext name
  refine Option.ext fun v => ?_
  constructor
  · intro h
    obtain rfl := name_of_find? h
    exact find?_of_mem hn' (hp.mem_iff.1 (List.mem_of_find?_eq_some h))
  · intro h
    obtain rfl := name_of_find? h
    exact find?_of_mem hn (hp.mem_iff.2 (List.mem_of_find?_eq_some h))

variable (h : Variable.find? vars = Variable.find? vars')
include h

namespace Variable

theorem referenced_eq_of_find? : referenced vars = referenced vars' := by
  funext d key
  rw [referenced, referenced, h]

theorem reference_eq_of_find? : reference vars = reference vars' := by
  funext d key
  rw [reference, reference, referenced_eq_of_find? h]

theorem arrayReference_eq_of_find? : arrayReference vars = arrayReference vars' := by
  funext d key
  rw [arrayReference, arrayReference, referenced_eq_of_find? h]

theorem matrixReference_eq_of_find? : matrixReference vars = matrixReference vars' := by
  funext d key s
  rw [matrixReference, matrixReference, referenced_eq_of_find? h]

end Variable

theorem Demand.ofFields_eq_of_find? (tag : String) : ofFields tag vars = ofFields tag vars' := by
  funext d
  simp only [ofFields, distinctOf, Variable.reference_eq_of_find? h, Variable.arrayReference_eq_of_find? h,
    Variable.matrixReference_eq_of_find? h]

/-- **A constraint knows the variables by their names only.** -/
theorem Constraint.ofFields_eq_of_find? : ofFields vars = ofFields vars' := by
  funext d
  simp only [ofFields, Demand.ofFields_eq_of_find? h]

/-- **An objective knows the variables by their names only.** -/
theorem Objective.ofFields_eq_of_find? : ofFields vars = ofFields vars' := by
  funext d
  rw [ofFields, ofFields, Variable.reference_eq_of_find? h]

end Resolving

/-! ## Scalars, arrays, matrices -/

/-- The place of a layout among scalars, arrays and matrices. -/
def Layout.rank : Layout → Nat
  | scalar => 0
  | array .. => 1
  | matrix .. => 2

/-- Scalars come before arrays and arrays before matrices. -/
def Variable.InOrder (vars : List Variable) : Prop := vars.Pairwise fun v w => v.layout.rank ≤ w.layout.rank

namespace Model

variable (vars : List Variable)

/-- Variables that are picked by their layout have the rank of the layouts that are picked. -/
theorem rank_of_mem_filter {p : Layout → Bool} {n : Nat} (hp : ∀ l, p l = true → l.rank = n) {v : Variable}
    (hv : v ∈ vars.filter fun v => p v.layout) : v.layout.rank = n := hp _ (List.mem_filter.1 hv).2

/-- Variables of one rank are in order. -/
theorem inOrder_of_rank {vars : List Variable} {n : Nat} (h : ∀ v ∈ vars, v.layout.rank = n) : Variable.InOrder vars :=
  List.pairwise_of_forall_mem_list fun v hv w hw => Nat.le_of_eq ((h v hv).trans (h w hw).symm)

/-- **Variables that are arranged are in order.** -/
theorem inOrder_arrange : Variable.InOrder (arrange vars) := by
  have scalar {v : Variable} := rank_of_mem_filter vars (p := Layout.isScalar) (n := 0) (v := v)
    (by intro l; cases l <;> simp [Layout.isScalar, Layout.rank])
  have array {v : Variable} :=
    rank_of_mem_filter vars (p := fun l => !l.isScalar && !l.isMatrix) (n := 1) (v := v)
      (by intro l; cases l <;> simp [Layout.isScalar, Layout.isMatrix, Layout.rank])
  have matrix {v : Variable} := rank_of_mem_filter vars (p := Layout.isMatrix) (n := 2) (v := v)
    (by intro l; cases l <;> simp [Layout.isMatrix, Layout.rank])
  rw [arrange]
  refine List.pairwise_append.2 ⟨List.pairwise_append.2 ⟨inOrder_of_rank fun v => scalar,
    inOrder_of_rank fun v => array, ?_⟩, inOrder_of_rank fun v => matrix, ?_⟩
  · intro v hv w hw
    rw [scalar hv, array hw]
    omega
  · intro v hv w hw
    rw [matrix hw]
    rcases List.mem_append.1 hv with hv | hv
    · rw [scalar hv]
      omega
    · rw [array hv]
      omega

end Model

/-! ## Documents that list variables in another order -/

/-- The second document lists the variables of the first in another order and is the same in all else. -/
structure Fields.Reordered (d d' : Fields) : Prop where
  others : ∀ key ≠ "var", d.get? key = d'.get? key
  vars : d.get? "var" = d'.get? "var" ∨
    ∃ entries entries', d.get? "var" = some (.arr entries) ∧ d'.get? "var" = some (.arr entries') ∧
      entries.Perm entries'

namespace Fields.Reordered

theorem symm {d d' : Fields} (h : Reordered d d') : Reordered d' d where
  others key hkey := (h.others key hkey).symm
  vars := by
    rcases h.vars with heq | ⟨entries, entries', he, he', hp⟩
    · exact Or.inl heq.symm
    · exact Or.inr ⟨entries', entries, he', he, hp.symm⟩

/-- Wherever the variables stand in a document, they may be permuted. -/
theorem of_perm (before after : Fields) {entries entries' : List Json} (hp : entries.Perm entries') :
    Reordered (before ++ ("var", .arr entries) :: after) (before ++ ("var", .arr entries') :: after) where
  others key hkey := by simp [hkey]
  vars := by
    cases hb : OrderedMap.get? before "var" with
    | none => exact Or.inr ⟨entries, entries', by simp [hb], by simp [hb], hp⟩
    | some v => exact Or.inl (by simp [hb])

end Fields.Reordered

namespace Model

section Reading

variable {d d' : Fields}

theorem entriesOf_eq_of_get? {α : Type} {key : String} (read : Fields → Except ModelError α)
    (h : d.get? key = d'.get? key) : entriesOf d key read = entriesOf d' key read := by
  simp only [entriesOf, Fields.arrayOrEmpty, Fields.optional, h]

theorem limitOf_eq_of_get? (h : d.get? "solution_limit" = d'.get? "solution_limit") : limitOf d = limitOf d' := by
  simp only [limitOf, Fields.integer?, Fields.optional, h]

theorem searcherOf_eq_of_get? (h : d.get? "searcher" = d'.get? "searcher") : searcherOf d = searcherOf d' := by
  simp only [searcherOf, Fields.string?, Fields.optional, h]

/-- The items of a list that is permuted are read in the permuted order. -/
theorem entriesOf_of_perm {α : Type} {key : String} {read : Fields → Except ModelError α} {l : List α}
    {entries entries' : List Json} (hget : d.get? key = some (.arr entries))
    (hget' : d'.get? key = some (.arr entries')) (hp : entries.Perm entries') (hl : entriesOf d key read = .ok l) :
    ∃ l', entriesOf d' key read = .ok l' ∧ l.Perm l' := by
  simp only [entriesOf, Fields.arrayOrEmpty_of_get? hget, Fields.arrayOrEmpty_of_get? hget', Except.ok_bind,
    Except.mapM_eq_ok] at hl ⊢
  obtain ⟨l', hl', hp'⟩ := List.perm_comp_forall₂ hp.symm hl
  exact ⟨l', hl', hp'.symm⟩

/-- The same variables are read, in another order. -/
theorem exists_vars_of_reordered (hd : d.Reordered d') {vars : List Variable}
    (hvars : entriesOf d "var" Variable.ofFields = .ok vars) :
    ∃ vars', entriesOf d' "var" Variable.ofFields = .ok vars' ∧ vars.Perm vars' := by
  rcases hd.vars with heq | ⟨entries, entries', he, he', hp⟩
  · exact ⟨vars, entriesOf_eq_of_get? _ heq ▸ hvars, .refl _⟩
  · exact entriesOf_of_perm he he' hp hvars

end Reading

/-! ## The models of both documents -/

/-- The models have the same variables, each of them in order, and are the same in all else. -/
structure SameButOrder (m m' : Model) : Prop where
  perm : m.vars.Perm m'.vars
  inOrder : Variable.InOrder m.vars
  inOrder' : Variable.InOrder m'.vars
  constraints : m.constraints = m'.constraints
  objectives : m.objectives = m'.objectives
  searcher : m.searcher = m'.searcher
  cutoff : m.cutoff = m'.cutoff
  callback : m.callback = m'.callback
  limit : m.limit = m'.limit

section Models

variable {d d' : Fields} (hd : d.Reordered d') {vars : List Variable}
  (hvars : entriesOf d "var" Variable.ofFields = .ok vars) (hnames : (vars.map Variable.name).Nodup)
include hd hvars hnames

/-- **The document is accepted if it was accepted with its variables in another order.** -/
theorem exists_model_of_reordered {m : Model} (hm : ofFields d = .ok m) :
    ∃ m', ofFields d' = .ok m' ∧ m.SameButOrder m' := by
  obtain ⟨vars', hvars', hp⟩ := exists_vars_of_reordered hd hvars
  obtain ⟨_, hread, harrange, hconstraints, hobjectives, hlimit, hsearcher, hcutoff, hcallback⟩ := ofFields_cases hm
  obtain rfl := Except.ok.inj (hvars.symm.trans hread)
  have hperm : m.vars.Perm (arrange vars') := by
    rw [harrange]
    exact (arrange_perm vars).trans (hp.trans (arrange_perm vars').symm)
  have hfind : Variable.find? m.vars = Variable.find? (arrange vars') := by
    refine Variable.find?_of_perm hperm ?_
    rw [harrange]
    exact ((arrange_perm vars).map _).nodup_iff.2 hnames
  rw [Constraint.ofFields_eq_of_find? hfind, entriesOf_eq_of_get? _ (hd.others "constraint" (by decide))]
    at hconstraints
  rw [Objective.ofFields_eq_of_find? hfind, entriesOf_eq_of_get? _ (hd.others "specific" (by decide))] at hobjectives
  rw [limitOf_eq_of_get? (hd.others "solution_limit" (by decide))] at hlimit
  rw [searcherOf_eq_of_get? (hd.others "searcher" (by decide))] at hsearcher
  rw [cutoffOf, hd.others "cutoff" (by decide), hd.others "meta_cutoff" (by decide), ← cutoffOf] at hcutoff
  rw [Fields.string?, Fields.optional, hd.others "callback_url" (by decide), ← Fields.optional, ← Fields.string?]
    at hcallback
  refine ⟨{ m with vars := arrange vars' }, ?_, ?_⟩
  · simp only [ofFields, hvars', hconstraints, hobjectives, hlimit, hsearcher, hcutoff, hcallback, Except.ok_bind,
      Except.pure_eq]
  · exact {
      perm := hperm
      inOrder := harrange ▸ inOrder_arrange vars
      inOrder' := inOrder_arrange vars'
      constraints := rfl
      objectives := rfl
      searcher := rfl
      cutoff := rfl
      callback := rfl
      limit := rfl }

/-- **The order in which a document lists its variables does not matter.** -/
theorem ofFields_of_reordered : ((∃ m, ofFields d = .ok m) ↔ ∃ m', ofFields d' = .ok m') ∧
    ∀ m m', ofFields d = .ok m → ofFields d' = .ok m' → m.SameButOrder m' := by
  refine ⟨⟨?_, ?_⟩, ?_⟩
  · rintro ⟨m, hm⟩
    obtain ⟨m', hm', -⟩ := exists_model_of_reordered hd hvars hnames hm
    exact ⟨m', hm'⟩
  · rintro ⟨m', hm'⟩
    obtain ⟨vars', hvars', hp⟩ := exists_vars_of_reordered hd hvars
    obtain ⟨m, hm, -⟩ := exists_model_of_reordered hd.symm hvars' ((hp.map _).nodup_iff.1 hnames) hm'
    exact ⟨m, hm⟩
  · intro m m' hm hm'
    obtain ⟨m'', hm'', hsame⟩ := exists_model_of_reordered hd hvars hnames hm
    obtain rfl := Except.ok.inj (hm''.symm.trans hm')
    exact hsame

end Models

/-! ### A matrix before and after the array -/

/-- A document that lists a matrix, an array and two scalars as `entries` has them, with a constraint that needs the
matrix, one that needs the array and an objective. -/
def gridDocument (entries : List Json) : Fields :=
  [("solution_limit", .int 3), ("var", .arr entries),
    ("constraint", .arr [
      .obj [("type", .str "distinct"), ("v1", .str "MATRIX$2$3$board"), ("selection", .str "row"), ("size", .int 3),
        ("index", .int 1)],
      .obj [("name", .str "pick"), ("type", .str "element"), ("map", .str "row"), ("v1", .str "i"), ("v2", .str "x")]]),
    ("specific", .arr [.obj [("var", .str "x"), ("type", .str "minimize")]])]

/-- The variables of the document, the matrix first. -/
def gridEntries : List Json :=
  [.obj [("name", .str "board"), ("type", .str "integer_array"), ("subtype", .str "matrix"), ("rows", .int 2),
      ("cols", .int 3)],
    .obj [("name", .str "row"), ("type", .str "integer_array"), ("length", .int 3)],
    .obj [("name", .str "x"), ("type", .str "integer")],
    .obj [("name", .str "i"), ("type", .str "integer")]]

/-- The variables of the document, as they are read. -/
def gridVars : List Variable :=
  [⟨"MATRIX$2$3$board", .integer, .matrix 2 3 .standard, .unrestricted, .standard, -1⟩,
    ⟨"row", .integer, .array 3 .standard, .unrestricted, .standard, -1⟩,
    ⟨"x", .integer, .scalar, .unrestricted, .standard, -1⟩, ⟨"i", .integer, .scalar, .unrestricted, .standard, -1⟩]

theorem ofFields_of_reordered_gridDocument :
    ((∃ m, ofFields (gridDocument gridEntries) = .ok m) ↔ ∃ m', ofFields (gridDocument gridEntries.reverse) = .ok m') ∧
    ∀ m m', ofFields (gridDocument gridEntries) = .ok m → ofFields (gridDocument gridEntries.reverse) = .ok m' →
      m.SameButOrder m' :=
  have hvars : entriesOf (gridDocument gridEntries) "var" Variable.ofFields = .ok gridVars := rfl
  ofFields_of_reordered (.of_perm [("solution_limit", .int 3)] _ (List.reverse_perm _).symm) hvars (by decide)

/-- Both orders are accepted, and the second scalar comes first when the variables are listed backwards. -/
example : (ofFields (gridDocument gridEntries)).map (fun m => m.vars.map Variable.name) =
      .ok ["x", "i", "row", "MATRIX$2$3$board"] ∧
    (ofFields (gridDocument gridEntries.reverse)).map (fun m => m.vars.map Variable.name) =
      .ok ["i", "x", "row", "MATRIX$2$3$board"] := ⟨rfl, rfl⟩

end Model

end SolverClient
