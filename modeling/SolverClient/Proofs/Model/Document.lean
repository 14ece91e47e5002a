import SolverClient.Proofs.Constraint.Document
import SolverClient.Proofs.Cutoff
import SolverClient.Proofs.Model.Arrange
import SolverClient.Proofs.Objective
import SolverClient.Proofs.Variable.Document

/-!
# Models are read back

A model is **writable** (`Model.Writable`) if each of its parts is read back from its own fields and its limit is a
positive word of 32 bits. A writable model is read back from its document (`Model.ofFields_document`) with its variables
in order and with the search that the document names. Everything that is read from a document that a text can hold is
writable (`Model.writable_of_ofFields`), with its variables in order already.
-/

namespace SolverClient

/-! ## Lists of objects -/

theorem Json.fieldsOf_eq_ok {field : String} {v : Json} {d : Fields} : fieldsOf field v = .ok d ↔ v = .obj d := by
  cases v <;> simp [fieldsOf]

/-- What the reader of an array that may be absent has found. -/
theorem Fields.arrayOrEmpty_eq_ok {d : Fields} {key : String} {items : List Json} (h : d.arrayOrEmpty key = .ok items) :
    items = [] ∨ d.get? key = some (.arr items) := by
  obtain ⟨o, ho, rfl⟩ := Except.map_eq_ok.1 h
  rcases optional_eq_ok.1 ho with ⟨rfl, -⟩ | ⟨v, a, hv, -, ha, rfl⟩
  · exact Or.inl rfl
  · cases v <;> simp [Json.asArray?] at ha
    exact Or.inr (by rw [hv, ha]; rfl)

namespace Model

section Entries

variable {α : Type} {d : Fields} {key : String} {read : Fields → Except ModelError α} {l : List α}

/-- A list that was written object by object is read back if each of its items is. -/
theorem entriesOf_of_get? {write : α → Fields} (h : d.get? key = some (.arr (l.map fun a => .obj (write a))))
    (hread : ∀ a ∈ l, read (write a) = .ok a) : entriesOf d key read = .ok l := by
  have hitems := Except.mapM_map (f := fun v => Json.fieldsOf key v >>= read) (g := fun a => Json.obj (write a)) (l := l)
    fun a ha => by simp [Json.fieldsOf, hread a ha]
  simp [entriesOf, Fields.arrayOrEmpty_of_get? h, hitems]

/-- Each item of a list is read from an object, which a text can hold if it can hold the document. -/
theorem exists_of_mem_entriesOf (h : entriesOf d key read = .ok l) {a : α} (ha : a ∈ l) :
    ∃ e : Fields, read e = .ok a ∧ ((Json.obj d).WellFormed → (Json.obj e).WellFormed) := by
  simp only [entriesOf, Except.bind_eq_ok] at h
  obtain ⟨items, hitems, h⟩ := h
  obtain ⟨v, hv, hread⟩ := exists_of_forall₂ (Except.mapM_eq_ok.1 h) a ha
  simp only [Except.bind_eq_ok, Json.fieldsOf_eq_ok] at hread
  obtain ⟨e, rfl, hread⟩ := hread
  refine ⟨e, hread, fun hd => ?_⟩
  rcases Fields.arrayOrEmpty_eq_ok hitems with rfl | hget
  · cases hv
  · exact (hd.get? hget).items hv

end Entries

/-! ## The document of a model -/

/-- The document of a model, naming the given search if there is one. -/
def document (m : Model) (search : Option Searcher) : Fields :=
  [("var", .arr (m.vars.map fun v => .obj v.toFields)),
    ("constraint", .arr (m.constraints.map fun c => .obj c.toFields)),
    ("specific", .arr (m.objectives.map fun o => .obj o.toFields)), ("solution_limit", .int m.limit)] ++
    (search.map fun s => ("searcher", .str s.tag)).toList ++ (m.cutoff.map fun c => (c.key, .obj c.toFields)).toList ++
    (m.callback.map fun url => ("callback_url", .str url)).toList

/-- The search that a document names: only a final document names one. -/
def searchOf (m : Model) (final : Bool) : Option Searcher := if final then m.searcher else none

/-- A model has a document if its limit is not zero and, for the final document, a search is set. -/
theorem toFields_eq {m : Model} {final : Bool} (hl : m.limit ≠ 0) (hs : final = true → m.searcher ≠ none) :
    m.toFields final = .ok (m.document (m.searchOf final)) := by
  cases final with
  | false => simp [toFields, searchFields, fieldsAround, hl, document, searchOf]
  | true =>
    cases hm : m.searcher with
    | none => exact absurd hm (hs rfl)
    | some s => simp [toFields, searchFields, fieldsAround, hl, hm, document, searchOf]

section Fields

variable (m : Model) (search : Option Searcher)

theorem get?_document_var :
    (m.document search).get? "var" = some (.arr (m.vars.map fun v => .obj v.toFields)) := by simp [document]

theorem get?_document_constraint :
    (m.document search).get? "constraint" = some (.arr (m.constraints.map fun c => .obj c.toFields)) := by
  simp [document]

theorem get?_document_specific :
    (m.document search).get? "specific" = some (.arr (m.objectives.map fun o => .obj o.toFields)) := by
  simp [document]

theorem get?_document_limit : (m.document search).get? "solution_limit" = some (.int m.limit) := by simp [document]

theorem get?_document_searcher : (m.document search).get? "searcher" = search.map fun s => .str s.tag := by
  cases hc : m.cutoff with
  | none => cases search <;> cases hu : m.callback <;> simp [document, hc, hu]
  | some c =>
    cases search <;> cases hu : m.callback <;> cases hk : c.isComposed <;>
      simp [document, hc, hu, Cutoff.key, hk]

theorem get?_document_callback : (m.document search).get? "callback_url" = m.callback.map .str := by
  cases hc : m.cutoff with
  | none => cases search <;> cases hu : m.callback <;> simp [document, hc, hu]
  | some c =>
    cases search <;> cases hu : m.callback <;> cases hk : c.isComposed <;>
      simp [document, hc, hu, Cutoff.key, hk]

/-- A plain cutoff stands under the one key, a composed one under the other. -/
theorem get?_document_cutoff :
    (m.document search).get? "cutoff" = (m.cutoff.filter fun c => !c.isComposed).map (fun c => .obj c.toFields) ∧
      (m.document search).get? "meta_cutoff" = (m.cutoff.filter Cutoff.isComposed).map fun c => .obj c.toFields := by
  cases hc : m.cutoff with
  | none => cases search <;> cases hu : m.callback <;> simp [document, hc, hu]
  | some c =>
    cases search <;> cases hu : m.callback <;> cases hk : c.isComposed <;>
      simp [document, hc, hu, Cutoff.key, hk, Option.filter]

/-- **No document has a cutoff under both keys.** -/
theorem not_both_cutoffs : ¬ ((m.document search).contains "cutoff" = true ∧
    (m.document search).contains "meta_cutoff" = true) := by
  obtain ⟨hp, hk⟩ := m.get?_document_cutoff search
  rw [OrderedMap.contains, OrderedMap.contains, hp, hk]
  cases m.cutoff with
  | none => simp
  | some c => cases h : c.isComposed <;> simp [Option.filter, h]

end Fields

/-! ## Models that can be written -/

/-- Each part of the model is read back from its own fields, and the limit is a positive word of 32 bits. -/
structure Writable (m : Model) : Prop where
  coherent : ∀ v ∈ m.vars, v.Coherent
  varWords : ∀ v ∈ m.vars, v.InWords
  varFinite : ∀ v ∈ m.vars, v.IsFinite
  resolved : ∀ c ∈ m.constraints, c.demand.ResolvedIn (arrange m.vars)
  demandWords : ∀ c ∈ m.constraints, c.demand.InWords
  demandFinite : ∀ c ∈ m.constraints, c.demand.IsFinite
  keepsBranch : ∀ c ∈ m.constraints, c.demand.KeepsBranch
  objectives : ∀ o ∈ m.objectives, Variable.Named (arrange m.vars) o.variableName
  cutoffWords : ∀ c, m.cutoff = some c → c.InWords
  cutoffFinite : ∀ c, m.cutoff = some c → c.IsFinite
  limitPos : 1 ≤ m.limit
  limitLt : m.limit < Word.bound32

section ReadBack

variable {m : Model} {search : Option Searcher}

theorem limitOf_document (h : m.Writable) : limitOf (m.document search) = .ok m.limit := by
  have hpos := h.limitPos
  have hlt := h.limitLt
  have hsigned : Word.isSigned (m.limit : Int) = true := by
    simp only [Word.bound32] at hlt
    simp only [Word.isSigned, Bool.and_eq_true, decide_eq_true_eq]
    simp only [Word.signedBound]
    omega
  have hrange : (1 : Int) ≤ m.limit ∧ (m.limit : Int) < Word.bound32 := by omega
  simp only [limitOf, Fields.integer?_of_get? (m.get?_document_limit search) hsigned, Except.ok_bind, hrange]
  simp

theorem searcherOf_document : searcherOf (m.document search) = .ok search := by
  have hget := m.get?_document_searcher search
  cases search with
  | none => simp [searcherOf, Fields.string?_of_get?_none hget]
  | some s => simp [searcherOf, Fields.string?_of_get? hget, Searcher.read?_tag]

theorem cutoffOf_document (h : m.Writable) : cutoffOf (m.document search) = .ok m.cutoff := by
  obtain ⟨hp, hk⟩ := m.get?_document_cutoff search
  cases hc : m.cutoff with
  | none =>
    simp only [hc, Option.filter_none, Option.map_none] at hp hk
    simp [cutoffOf, hp, hk]
  | some c =>
    rw [hc] at hp hk
    have hread := Cutoff.ofFields_toFields (h.cutoffWords c hc) (h.cutoffFinite c hc)
    cases hcomposed : c.isComposed <;> simp [Option.filter, hcomposed] at hp hk <;>
      simp [cutoffOf, hp, hk, Json.fieldsOf, hread]

theorem callback_document : (m.document search).string? "callback_url" = .ok m.callback := by
  have hget := m.get?_document_callback search
  cases hu : m.callback with
  | none =>
    rw [hu] at hget
    exact Fields.string?_of_get?_none hget
  | some url =>
    rw [hu] at hget
    exact Fields.string?_of_get? hget

/-- **A writable model is read back** with its variables in order and with the search of the document. -/
theorem ofFields_document (h : m.Writable) :
    ofFields (m.document search) = .ok { m with vars := arrange m.vars, searcher := search } := by
  have hvars : entriesOf (m.document search) "var" Variable.ofFields = .ok m.vars :=
    entriesOf_of_get? (m.get?_document_var search) fun v hv =>
      Variable.ofFields_toFields (h.coherent v hv) (h.varWords v hv) (h.varFinite v hv)
  have hconstraints : entriesOf (m.document search) "constraint" (Constraint.ofFields (arrange m.vars)) =
      .ok m.constraints :=
    entriesOf_of_get? (m.get?_document_constraint search) fun c hc =>
      Constraint.ofFields_toFields (h.resolved c hc) (h.demandWords c hc) (h.demandFinite c hc) (h.keepsBranch c hc)
  have hobjectives : entriesOf (m.document search) "specific" (Objective.ofFields (arrange m.vars)) =
      .ok m.objectives :=
    entriesOf_of_get? (m.get?_document_specific search) fun o ho => Objective.ofFields_toFields (h.objectives o ho)
  simp only [ofFields, hvars, hconstraints, hobjectives, limitOf_document h, searcherOf_document, cutoffOf_document h,
    callback_document, Except.ok_bind, Except.pure_eq]

/-- A text can hold the document of a writable model if the numbers of cells are words. -/
theorem wellFormed_document (h : m.Writable) (hsize : ∀ v ∈ m.vars, v.size < Word.bound64) :
    (Json.obj (m.document search)).WellFormed := by
  have hvars : (Json.arr (m.vars.map fun v => .obj v.toFields)).WellFormed := by
    refine .arr fun w hw => ?_
    obtain ⟨v, hv, rfl⟩ := List.mem_map.1 hw
    exact Variable.wellFormed_toFields (h.varWords v hv) (hsize v hv)
  have hconstraints : (Json.arr (m.constraints.map fun c => .obj c.toFields)).WellFormed := by
    refine .arr fun w hw => ?_
    obtain ⟨c, hc, rfl⟩ := List.mem_map.1 hw
    exact Constraint.wellFormed_toFields (h.demandWords c hc)
  have hobjectives : (Json.arr (m.objectives.map fun o => .obj o.toFields)).WellFormed := by
    refine .arr fun w hw => ?_
    obtain ⟨o, -, rfl⟩ := List.mem_map.1 hw
    exact Objective.wellFormed_toFields
  have hlimit : (Json.int m.limit).WellFormed := .int_of_lt (Nat.lt_trans h.limitLt (by decide))
  have hsearch : (Json.obj (search.map fun s => ("searcher", Json.str s.tag)).toList).WellFormed := by
    cases search <;> simp
  have hcutoff : (Json.obj (m.cutoff.map fun c => (c.key, Json.obj c.toFields)).toList).WellFormed := by
    cases hc : m.cutoff with
    | none => simp
    | some c => simp [Cutoff.wellFormed_toFields (h.cutoffWords c hc)]
  have hcallback : (Json.obj (m.callback.map fun url => ("callback_url", Json.str url)).toList).WellFormed := by
    cases m.callback <;> simp
  simp only [document, Json.WellFormed.obj_append, Json.WellFormed.obj_cons, Json.WellFormed.obj_nil, hvars,
    hconstraints, hobjectives, hlimit, hsearch, hcutoff, hcallback, and_self]

end ReadBack

/-! ## Models that were read -/

section Reading

variable {d : Fields} {m : Model}

theorem limitOf_bounds {n : Nat} (h : limitOf d = .ok n) : 1 ≤ n ∧ n < Word.bound32 := by
  simp only [limitOf, Except.bind_eq_ok] at h
  obtain ⟨o, -, h⟩ := h
  split at h
  · cases h
    decide
  · split at h
    · cases h
      omega
    · cases h

/-- A cutoff that was read was described by an object under one of its two keys. -/
theorem describes_of_cutoffOf {c : Cutoff} (h : cutoffOf d = .ok (some c)) :
    ∃ e : Fields, Cutoff.Describes e c ∧ ((Json.obj d).WellFormed → (Json.obj e).WellFormed) := by
  unfold cutoffOf at h
  split at h
  · cases h
  · rename_i v hv _
    simp only [Except.bind_eq_ok, Except.pure_eq_ok, Json.fieldsOf_eq_ok, Option.some.injEq] at h
    obtain ⟨e, rfl, c', hc, rfl⟩ := h
    exact ⟨e, Cutoff.ofFields_eq_ok.1 hc, fun hd => hd.get? hv⟩
  · rename_i v _ hv
    simp only [Except.bind_eq_ok, Except.pure_eq_ok, Json.fieldsOf_eq_ok, Option.some.injEq] at h
    obtain ⟨e, rfl, c', hc, rfl⟩ := h
    exact ⟨e, Cutoff.ofFields_eq_ok.1 hc, fun hd => hd.get? hv⟩
  · cases h

/-- What the reader of a model has found. -/
theorem ofFields_cases (h : ofFields d = .ok m) : ∃ vars,
    entriesOf d "var" Variable.ofFields = .ok vars ∧ m.vars = arrange vars ∧
      entriesOf d "constraint" (Constraint.ofFields m.vars) = .ok m.constraints ∧
      entriesOf d "specific" (Objective.ofFields m.vars) = .ok m.objectives ∧ limitOf d = .ok m.limit ∧
      searcherOf d = .ok m.searcher ∧ cutoffOf d = .ok m.cutoff ∧ d.string? "callback_url" = .ok m.callback := by
  simp only [ofFields, Except.bind_eq_ok, Except.pure_eq_ok] at h
  obtain ⟨vars, hvars, constraints, hconstraints, objectives, hobjectives, limit, hlimit, searcher, hsearcher, cutoff,
    hcutoff, callback, hcallback, rfl⟩ := h
  exact ⟨vars, hvars, rfl, hconstraints, hobjectives, hlimit, hsearcher, hcutoff, hcallback⟩

/-- The variables of a model that was read are in order. -/
theorem arrange_of_ofFields (h : ofFields d = .ok m) : arrange m.vars = m.vars := by
  obtain ⟨vars, -, hv, -⟩ := ofFields_cases h
  rw [hv, arrange_arrange]

/-- **A model that was read is writable** if a text can hold the document. -/
theorem writable_of_ofFields (hd : (Json.obj d).WellFormed) (h : ofFields d = .ok m) : m.Writable := by
  have harrange := arrange_of_ofFields h
  obtain ⟨vars, hvars, hv, hconstraints, hobjectives, hlimit, -, hcutoff, -⟩ := ofFields_cases h
  obtain ⟨hpos, hlt⟩ := limitOf_bounds hlimit
  have hvar : ∀ v ∈ m.vars, v.Coherent ∧ v.InWords ∧ v.IsFinite := by
    intro v hmem
    rw [hv, mem_arrange] at hmem
    obtain ⟨e, he, hwf⟩ := exists_of_mem_entriesOf hvars hmem
    exact ⟨Variable.coherent_of_ofFields he, Variable.inWords_of_ofFields he, Variable.isFinite_of_ofFields (hwf hd) he⟩
  have hconstraint : ∀ c ∈ m.constraints, c.demand.ResolvedIn m.vars ∧ c.demand.InWords ∧ c.demand.IsFinite ∧
      c.demand.KeepsBranch := by
    intro c hc
    obtain ⟨e, he, hwf⟩ := exists_of_mem_entriesOf hconstraints hc
    obtain ⟨-, tag, -, hdescribes⟩ := Constraint.ofFields_eq_ok.1 he
    exact ⟨hdescribes.resolvedIn, hdescribes.inWords, hdescribes.isFinite (hwf hd), hdescribes.keepsBranch⟩
  have hobjective : ∀ o ∈ m.objectives, Variable.Named m.vars o.variableName := by
    intro o ho
    obtain ⟨e, he, -⟩ := exists_of_mem_entriesOf hobjectives ho
    exact (Objective.ofFields_eq_ok.1 he).2.2
  have hcut : ∀ c, m.cutoff = some c → c.InWords ∧ c.IsFinite := by
    intro c hc
    obtain ⟨e, hdescribes, hwf⟩ := describes_of_cutoffOf (hc ▸ hcutoff)
    exact ⟨hdescribes.inWords, hdescribes.isFinite (hwf hd)⟩
  exact {
    coherent := fun v hv => (hvar v hv).1
    varWords := fun v hv => (hvar v hv).2.1
    varFinite := fun v hv => (hvar v hv).2.2
    resolved := fun c hc => by rw [harrange]; exact (hconstraint c hc).1
    demandWords := fun c hc => (hconstraint c hc).2.1
    demandFinite := fun c hc => (hconstraint c hc).2.2.1
    keepsBranch := fun c hc => (hconstraint c hc).2.2.2
    objectives := fun o ho => by rw [harrange]; exact hobjective o ho
    cutoffWords := fun c hc => (hcut c hc).1
    cutoffFinite := fun c hc => (hcut c hc).2
    limitPos := hpos
    limitLt := hlt }

end Reading

end Model

end SolverClient
