import SolverClient.Proofs.Engine.Session
import SolverClient.Proofs.Solution.Counted
import SolverClient.Proofs.Solution.Report

/-!
# Full reports of declared variables

A run of declarations adds the variables that are accepted, in order (`Session.vars_run`). Their names on the wire may
differ while their decoded names do not, as the base of a matrix may be the name of another variable, and an array may
have a name that reads as that of a matrix. What a full report of the variables comes to is therefore a matter of the
decoded names (`Session.ofRecordsInWords?_fullReport_run`). They are the names that were given, if none of these has the
mark of a matrix name (`Declaration.decoded_of_build`, `Session.decoded_of_unmarked`). A report cannot be read with counts
in words only if the name of an array reads as that of a matrix with more cells than words can count, as a matrix of
that size has more cells than there are positions (`Solution.not_overflows_of_fullReport`).
-/

namespace SolverClient

namespace Declaration

/-- The declaration is made into a variable. -/
def accepted (d : Declaration) : Bool := d.build.isOk

variable {d : Declaration} {v : Variable}

/-- **A declared variable is decoded under the name that was given**, and in its layout, if that name has no mark. -/
theorem decoded_of_build (h : d.build = .ok v) (hr : d.layout.grid.1 < Word.bound64)
    (hc : d.layout.grid.2 < Word.bound64) (hmark : MatrixName.hasMark d.name = false) :
    v.decodedName = d.name ∧ v.decodedLayout = v.layout := by
  have hplain := MatrixName.ofText?_of_not_hasMark hmark
  obtain ⟨-, -, -, -, name, hi, hv⟩ := build_eq_ok.1 h
  have hname : v.name = name := by rw [← hv]
  have hlayout := layout_of_build h
  unfold identifier at hi
  cases hl : d.layout with
  | scalar =>
    simp only [hl] at hi hlayout
    cases hi
    have hnone : v.decodedMatrix? = none := by simp [Variable.decodedMatrix?, hlayout, Layout.isScalar]
    rw [← hname]
    exact Variable.decoded_of_none hnone
  | array length s =>
    simp only [hl] at hi hlayout
    split at hi
    · cases hi
    · cases hi
      have hscalar : v.layout.isScalar = false := by rw [hlayout]; rfl
      rw [← hname] at hplain ⊢
      exact Variable.decoded_of_none ((Variable.decodedMatrix?_of_not_isScalar hscalar).trans hplain)
  | matrix rows cols s =>
    simp only [hl, Layout.grid] at hi hr hc hlayout
    split at hi
    · cases hi
    · -- The given name is the base, and that is what the name on the wire is decoded to.
      rw [MatrixName.identifier, if_neg (by simp [hmark])] at hi
      have hscalar : v.layout.isScalar = false := by rw [hlayout]; rfl
      have hread : MatrixName.ofText? v.name = some ⟨rows, cols, d.name⟩ := by
        rw [hname, ← Except.ok.inj hi]
        exact MatrixName.ofText?_text hr hc
      have hstrategy : v.layout.strategy? = some s := by rw [hlayout]; rfl
      have hdecoded :=
        Variable.decoded_of_some ((Variable.decodedMatrix?_of_not_isScalar hscalar).trans hread) hstrategy
      exact ⟨hdecoded.1, hdecoded.2.trans hlayout.symm⟩

/-- The decoded names of accepted declarations without marks are the names that were given. -/
theorem map_decodedName {declarations : List Declaration}
    (hwords : ∀ d ∈ declarations, d.layout.grid.1 < Word.bound64 ∧ d.layout.grid.2 < Word.bound64)
    (hmark : ∀ d ∈ declarations, d.accepted = true → MatrixName.hasMark d.name = false) :
    (declarations.filterMap fun d => d.build.toOption).map Variable.decodedName =
      (declarations.filter accepted).map Declaration.name := by
  induction declarations with
  | nil => rfl
  | cons d declarations ih =>
    obtain ⟨⟨hr, hc⟩, hwords⟩ := List.forall_mem_cons.1 hwords
    obtain ⟨hmark, hmarks⟩ := List.forall_mem_cons.1 hmark
    have ih := ih hwords hmarks
    cases hb : d.build with
    | error e => simpa [accepted, hb, Except.toOption, Except.isOk, Except.toBool] using ih
    | ok v =>
      have hname := (decoded_of_build hb hr hc (hmark (by rw [accepted, hb]; rfl))).1
      simpa [accepted, hb, Except.toOption, Except.isOk, Except.toBool, hname] using ih

end Declaration

/-- **A full report does not overflow**, unless the name of an array reads as that of a matrix with too many cells. -/
theorem Solution.not_overflows_of_fullReport {vars : List Variable} {records : List Json} (hv : Reportable vars)
    (hr : FullReport vars records)
    (harrays : ∀ v ∈ vars, v.layout.isMatrix = false → ∀ m, v.decodedMatrix? = some m →
      m.rows * m.cols < Word.bound64) : ¬ Overflows records := by
  rintro ⟨entries, hgather, hreach⟩
  obtain ⟨⟨name, _⟩, hmem, cells, m, rfl, hm, hle⟩ := exists_oversized_of_reaches hreach
  obtain ⟨rs, hp, -, hg⟩ := exists_of_gather hgather
  have hfull := full_of_parsed hr hp
  obtain ⟨v, hvv, rfl⟩ := List.mem_map.1 ((keys_perm_of_full hv hfull hg).mem_iff.1 (OrderedMap.mem_keys_of_mem hmem))
  -- The variable of the oversized entry has the cells of the entry, so it is no scalar.
  obtain ⟨x, hx, hlayout⟩ := Record.valueOf?_of_full hv hfull hvv
  obtain rfl : x = .sequence cells := Option.some.inj (hx.symm.trans (hg.valueOf?_of_mem hmem))
  cases hl : v.layout with
  | scalar => simp [Variable.wireLayout, hl, Layout.isScalar] at hlayout
  | array length s =>
    have hscalar : v.layout.isScalar = false := by rw [hl]; rfl
    have hmatrix : v.layout.isMatrix = false := by rw [hl]; rfl
    have hdecoded := (Variable.decodedMatrix?_of_not_isScalar hscalar).trans hm
    exact Nat.not_lt.2 hle (harrays v hvv hmatrix m hdecoded)
  | matrix rows cols s =>
    -- The cells of the matrix are all reported, so they are no more than the positions.
    have hscalar : v.layout.isScalar = false := by rw [hl]; rfl
    have hlength : cells.length = v.size := by simpa [Variable.wireLayout, hscalar] using hlayout
    have hsize : v.size = rows * cols := by rw [Variable.size, hl]; rfl
    obtain ⟨base, hread⟩ := hv.read v hvv rows cols s hl
    rw [hread] at hm
    cases hm
    have hcells := length_le_of_gather hgather hmem
    have hword : maxPosition + 1 < Word.bound64 := by decide
    simp only at hle
    omega

namespace Session

/-- **A run of declarations adds the variables that are accepted.** -/
theorem vars_run (s : Session) (declarations : List Declaration) :
    (s.run (declarations.map Step.declare)).draft.model.vars =
      s.draft.model.vars ++ declarations.filterMap fun d => d.build.toOption := by
  induction declarations generalizing s with
  | nil => simp [run]
  | cons d declarations ih =>
    have hstep : (s.step (.declare d)).draft.model.vars = s.draft.model.vars ++ d.build.toOption.toList := by
      simp only [step, Draft.declare]
      cases d.build with
      | error e => simp [Except.toOption]
      | ok v => rfl
    have hrun := ih (s.step (.declare d))
    rw [hstep] at hrun
    cases hb : d.build <;> simpa [run, hb, Except.toOption] using hrun

/-- The variables of a run of declarations. -/
def declaredVars (declarations : List Declaration) : List Variable :=
  (run { draft := {} } (declarations.map Step.declare)).draft.model.vars

variable {declarations : List Declaration} {vars : List Variable} {records : List Json} {v : Variable}

theorem declaredVars_eq (declarations : List Declaration) :
    declaredVars declarations = declarations.filterMap fun d => d.build.toOption := by
  rw [declaredVars, vars_run]
  rfl

theorem exists_build_of_mem (hv : v ∈ declaredVars declarations) : ∃ d ∈ declarations, d.build = .ok v := by
  rw [declaredVars_eq] at hv
  obtain ⟨d, hd, hmade⟩ := List.mem_filterMap.1 hv
  cases hb : d.build with
  | error e => simp [hb, Except.toOption] at hmade
  | ok w =>
    obtain rfl : w = v := by simpa [hb, Except.toOption] using hmade
    exact ⟨d, hd, hb⟩

/-- **Declared variables can be reported** if their names differ. -/
theorem reportable_declaredVars
    (hwords : ∀ d ∈ declarations, d.layout.grid.1 < Word.bound64 ∧ d.layout.grid.2 < Word.bound64)
    (hnames : ((declaredVars declarations).map Variable.name).Nodup) : Reportable (declaredVars declarations) where
  names := hnames
  sized := by
    intro v hv
    obtain ⟨d, -, hb⟩ := exists_build_of_mem hv
    obtain ⟨hr, hc⟩ := Declaration.grid_pos_of_build hb
    exact Nat.mul_pos hr hc
  read := by
    intro v hv rows cols s hl
    obtain ⟨d, hd, hb⟩ := exists_build_of_mem hv
    obtain ⟨hr, hc⟩ := hwords d hd
    rw [← Declaration.layout_of_build hb, hl] at hr hc
    exact Declaration.ofText?_of_build hb hl hr hc

/-- **Variables that are declared under different names without marks** are decoded under different names, and each in
its layout. -/
theorem decoded_of_unmarked
    (hwords : ∀ d ∈ declarations, d.layout.grid.1 < Word.bound64 ∧ d.layout.grid.2 < Word.bound64)
    (hmark : ∀ d ∈ declarations, d.accepted = true → MatrixName.hasMark d.name = false)
    (hgiven : ((declarations.filter Declaration.accepted).map Declaration.name).Nodup) :
    ((declaredVars declarations).map Variable.decodedName).Nodup ∧
      ∀ v ∈ declaredVars declarations, v.decodedLayout = v.layout := by
  refine ⟨?_, fun v hv => ?_⟩
  · rw [declaredVars_eq, Declaration.map_decodedName hwords hmark]
    exact hgiven
  · obtain ⟨d, hd, hb⟩ := exists_build_of_mem hv
    have haccepted : d.accepted = true := by rw [Declaration.accepted, hb]; rfl
    exact (Declaration.decoded_of_build hb (hwords d hd).1 (hwords d hd).2 (hmark d hd haccepted)).2

/-- **What a full report of declared variables comes to.** Let the variables of a run of declarations have different
names. A report of each scalar and each cell then ends in a conflict only if two variables have one decoded name, at
least one of them being taken for a matrix. A solution has one entry for each variable, in its decoded layout, which is
that of the variable unless it is an array whose name reads as that of a matrix. Let no variable have more cells than
there are positions, and no array a name that reads as that of a matrix with more cells than words can count. Then
either the decoded names differ and there is a solution or there is a conflict. If the given names differ and have no
mark, then the decoded names differ, layouts are kept, the report is read with counts in words, and no conflict can
come. -/
theorem ofRecordsInWords?_fullReport_run (hvars : declaredVars declarations = vars)
    (hwords : ∀ d ∈ declarations, d.layout.grid.1 < Word.bound64 ∧ d.layout.grid.2 < Word.bound64)
    (hnames : (vars.map Variable.name).Nodup) (hr : FullReport vars records) :
    (∀ name, Solution.ofRecordsInWords? records = some (.error (.shapeConflict name)) →
      ∃ v ∈ vars, ∃ w ∈ vars, v ≠ w ∧ v.decodedName = name ∧ w.decodedName = name ∧ v.decodedMatrix? ≠ none) ∧
    (∀ s, Solution.ofRecordsInWords? records = some (.ok s) →
      s.names.Perm (vars.map Variable.decodedName) ∧ s.names.Nodup ∧
        ∀ v ∈ vars, (∃ x, s.get? v.decodedName = some x ∧ x.HasLayout v.decodedLayout) ∧
          (v.layout.isMatrix = true ∨ v.decodedMatrix? = none → v.decodedLayout = v.layout)) ∧
    ((∀ v ∈ vars, v.size ≤ maxPosition + 1) →
      (∀ v ∈ vars, v.layout.isMatrix = false → ∀ m, v.decodedMatrix? = some m → m.rows * m.cols < Word.bound64) →
      ((vars.map Variable.decodedName).Nodup → ∃ s, Solution.ofRecordsInWords? records = some (.ok s)) ∧
        (¬ (vars.map Variable.decodedName).Nodup →
          ∃ name, Solution.ofRecordsInWords? records = some (.error (.shapeConflict name)))) ∧
    ((∀ d ∈ declarations, d.accepted = true → MatrixName.hasMark d.name = false) →
      ((declarations.filter Declaration.accepted).map Declaration.name).Nodup →
      (vars.map Variable.decodedName).Nodup ∧ (∀ v ∈ vars, v.decodedLayout = v.layout) ∧
        ∃ outcome, Solution.ofRecordsInWords? records = some outcome ∧
          ∀ name, outcome ≠ .error (.shapeConflict name)) := by
  subst hvars
  have hv := reportable_declaredVars hwords hnames
  refine ⟨fun name h => ?_, fun s h => ?_, fun hsmall harrays => ?_, fun hmark hgiven => ?_⟩
  · exact Solution.exists_ne_of_fullReport hv hr (Solution.ofRecordsInWords?_eq_some h).2
  · obtain ⟨hperm, hnodup, hentries⟩ := Solution.hasLayout_of_fullReport hv hr (Solution.ofRecordsInWords?_eq_some h).2
    exact ⟨hperm, hperm.nodup_iff.2 hnodup, fun v hvv => ⟨hentries v hvv, hv.decodedLayout_eq hvv⟩⟩
  · rw [Solution.ofRecordsInWords?_of_not_overflows (Solution.not_overflows_of_fullReport hv hr harrays)]
    simpa only [Option.some.injEq] using Solution.exists_ofRecords_of_fullReport hv hr hsmall
  · obtain ⟨hdecoded, hlayout⟩ := decoded_of_unmarked hwords hmark hgiven
    have hover : ¬ Solution.Overflows records := by
      refine Solution.not_overflows_of_fullReport hv hr fun v hvv hmatrix m hm => ?_
      -- An array that is taken for a matrix does not keep its layout.
      obtain ⟨s, hs⟩ := Layout.exists_strategy? (Variable.isScalar_of_decodedMatrix? hm)
      rw [← hlayout v hvv, (Variable.decoded_of_some hm hs).2] at hmatrix
      cases hmatrix
    refine ⟨hdecoded, hlayout, _, Solution.ofRecordsInWords?_of_not_overflows hover, fun name h => ?_⟩
    have htwo := Solution.two_le_count_of_fullReport hv hr h
    have hone := List.nodup_iff_count_le_one.1 hdecoded name
    omega

/-- One declaration of each layout, and one that is refused as it has no name. -/
def plainDeclarations : List Declaration :=
  [(Declaration.scalar .integer "x").withBounds (.int 0) (.int 9), .scalar .boolean "", .array .boolean "a" 2,
    .matrix .integer "grid" 1 2]

/-- The places of the variables, in no order. -/
def plainPlaces : List (String × Option Nat) :=
  [("MATRIX$1$2$grid", some 1), ("a", some 1), ("x", none), ("a", some 0), ("MATRIX$1$2$grid", some 0)]

/-- What the solver might say of them. -/
def plainReport : List Json := reportOf (fun _ => .int 1) plainPlaces

theorem ofRecordsInWords?_fullReport_run_plainReport : ∃ s, Solution.ofRecordsInWords? plainReport = some (.ok s) ∧
    s.names.Perm ["x", "a", "grid"] ∧
    ∀ v ∈ declaredVars plainDeclarations, ∃ x, s.get? v.decodedName = some x ∧ x.HasLayout v.layout := by
  have hwords : ∀ d ∈ plainDeclarations, d.layout.grid.1 < Word.bound64 ∧ d.layout.grid.2 < Word.bound64 := by decide
  have hreport : FullReport (declaredVars plainDeclarations) plainReport := fullReport_reportOf _ (by decide)
  have hnames : ((declaredVars plainDeclarations).map Variable.name).Nodup := by decide
  obtain ⟨-, hentries, hdecoded, hplain⟩ := ofRecordsInWords?_fullReport_run rfl hwords hnames hreport
  obtain ⟨hnodup, hlayout, -⟩ := hplain (by decide) (by decide)
  have harrays : ∀ v ∈ declaredVars plainDeclarations, v.layout.isMatrix = false → ∀ m, v.decodedMatrix? = some m →
      m.rows * m.cols < Word.bound64 := by
    intro v hv hmatrix m hm
    have hnone : ∀ v ∈ declaredVars plainDeclarations, v.layout.isMatrix = false → v.decodedMatrix? = none := by decide
    rw [hnone v hv hmatrix] at hm
    cases hm
  obtain ⟨s, hs⟩ := (hdecoded (by decide) harrays).1 hnodup
  obtain ⟨hnames, -, hshape⟩ := hentries s hs
  have hdecodedNames : (declaredVars plainDeclarations).map Variable.decodedName = ["x", "a", "grid"] := by decide
  rw [hdecodedNames] at hnames
  refine ⟨s, hs, hnames, fun v hv => ?_⟩
  rw [← hlayout v hv]
  exact (hshape v hv).1

/-- A scalar has the base of a matrix as its name. -/
def clashingDeclarations : List Declaration :=
  [(Declaration.scalar .integer "grid").withBounds (.int 0) (.int 9), .matrix .integer "grid" 1 1]

def clashingReport : List Json := reportOf (fun _ => .int 1) [("grid", none), ("MATRIX$1$1$grid", some 0)]

/-- An array has a name that reads as that of a matrix. -/
def markedDeclarations : List Declaration := [.array .integer "MATRIX$1$2$a" 2]

def markedReport : List Json := reportOf (fun _ => .int 1) [("MATRIX$1$2$a", some 0), ("MATRIX$1$2$a", some 1)]

/-- **Different names do not do.** They may be decoded into a conflict, and an array may be decoded into a matrix. -/
theorem clash_of_differentNames :
    (((declaredVars clashingDeclarations).map Variable.name).Nodup ∧
      FullReport (declaredVars clashingDeclarations) clashingReport ∧
      ¬ ((declaredVars clashingDeclarations).map Variable.decodedName).Nodup ∧
      Solution.ofRecordsInWords? clashingReport = some (.error (.shapeConflict "grid"))) ∧
    (((declaredVars markedDeclarations).map Variable.name).Nodup ∧
      FullReport (declaredVars markedDeclarations) markedReport ∧
      (∃ v ∈ declaredVars markedDeclarations, v.layout.isMatrix = false ∧ v.decodedMatrix? = some ⟨1, 2, "a"⟩) ∧
      ∃ s, Solution.ofRecordsInWords? markedReport = some (.ok s) ∧ s.get? "MATRIX$1$2$a" = none ∧
        s.get? "a" = some (.matrix [[some (.int 1), some (.int 1)]])) := by
  refine ⟨⟨by decide, fullReport_reportOf _ (by decide), by decide, rfl⟩, by decide, fullReport_reportOf _ (by decide),
    ?_, ?_⟩
  · exact ⟨_, List.mem_cons_self, rfl, by decide⟩
  · exact ⟨_, rfl, rfl, rfl⟩

end Session

end SolverClient
