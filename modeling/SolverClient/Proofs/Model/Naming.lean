import Mathlib.Data.List.Perm.Subperm
import SolverClient.Proofs.Model.Closed
import SolverClient.Proofs.Model.Run
import SolverClient.Proofs.NameSource

/-!
# The names of constraints

A constraint that is added without a name gets the first name of the source that no constraint has, and a source that
never repeats itself has such a name among its next ones, one more than there are constraints
(`Model.freshName_notMem`). A draft that came about by calls and by reading documents is traced (`Draft.Traced`) if for
each of its constraints it is known where its name comes from (`Origin`). By induction on how the draft came about, two
constraints share a name only if the later one did not get it from a source (`Draft.drawnNames_apart`), and a constraint
has no name only if it comes from a document that has none for it (`Draft.unnamed_iff_of_traced`).
-/

namespace SolverClient

/-! ## A fresh name -/

namespace Model

/-- The names that constraints have. -/
def constraintNames (m : Model) : List String := m.constraints.filterMap (·.name)

variable {m : Model} {name : String}

theorem mem_constraintNames : name ∈ m.constraintNames ↔ ∃ c ∈ m.constraints, c.name = some name := by
  simp [constraintNames, List.mem_filterMap]

theorem hasConstraintNamed_iff : m.hasConstraintNamed name = true ↔ name ∈ m.constraintNames := by
  simp [hasConstraintNamed, mem_constraintNames, List.any_eq_true]

/-- Names are drawn while they are taken. The last one drawn is given; it is taken only if no attempt is left. -/
theorem freshName_cases (m : Model) (attempts : Nat) (s : NameSource) : ∃ k ≤ attempts,
    m.freshName attempts s = (s.nth k, s.drop (k + 1)) ∧ (∀ i < k, s.nth i ∈ m.constraintNames) ∧
      (k < attempts → s.nth k ∉ m.constraintNames) := by
  induction attempts generalizing s with
  | zero =>
    exact ⟨0, Nat.le_refl 0, rfl, fun i hi => absurd hi (Nat.not_lt_zero i), fun h => absurd h (Nat.lt_irrefl 0)⟩
  | succ attempts ih =>
    by_cases htaken : s.nth 0 ∈ m.constraintNames
    · obtain ⟨k, hk, heq, hbefore, hfree⟩ := ih (s.drop 1)
      refine ⟨k + 1, Nat.succ_le_succ hk, ?_, fun i hi => ?_, fun h => ?_⟩
      · have hmore : m.freshName (attempts + 1) s = m.freshName attempts (s.drop 1) :=
          if_pos (hasConstraintNamed_iff.2 htaken)
        rw [hmore, heq, NameSource.nth_drop, NameSource.drop_drop, Nat.add_comm 1 k, Nat.add_comm 1 (k + 1)]
      · cases i with
        | zero => exact htaken
        | succ i =>
          have hi := hbefore i (Nat.lt_of_succ_lt_succ hi)
          rwa [NameSource.nth_drop, Nat.add_comm] at hi
      · have hfree := hfree (Nat.lt_of_succ_lt_succ h)
        rwa [NameSource.nth_drop, Nat.add_comm] at hfree
    · refine ⟨0, Nat.zero_le _, ?_, fun i hi => absurd hi (Nat.not_lt_zero i), fun _ => htaken⟩
      exact if_neg fun h => htaken (hasConstraintNamed_iff.1 h)

/-- **One attempt more than there are constraints is enough** for a source that does not repeat itself that soon: if all
the names drawn were taken then there would be more names taken than constraints. -/
theorem freshName_notMem {s : NameSource} (h : (s.take (m.constraints.length + 1)).Nodup) :
    (m.freshName m.constraints.length s).1 ∉ m.constraintNames := by
  obtain ⟨k, hk, heq, hbefore, hfree⟩ := m.freshName_cases m.constraints.length s
  rw [heq]
  intro htaken
  have hlast : k = m.constraints.length := by
    by_contra hne
    exact hfree (Nat.lt_of_le_of_ne hk hne) htaken
  have hall : s.take (m.constraints.length + 1) ⊆ m.constraintNames := by
    intro name hname
    rw [NameSource.take_eq_map_nth, List.mem_map] at hname
    obtain ⟨i, hi, rfl⟩ := hname
    rcases Nat.lt_or_ge i k with hlt | hge
    · exact hbefore i hlt
    · have hik : i = k := by
        have := List.mem_range.1 hi
        omega
      rwa [hik]
  have hlength := (List.subperm_of_subset h hall).length_le
  have hnames : m.constraintNames.length ≤ m.constraints.length := List.length_filterMap_le _ _
  rw [NameSource.take_eq_map_nth, List.length_map, List.length_range] at hlength
  omega

/-- The only document that a model can have. -/
theorem eq_document_of_toFields {final : Bool} {doc : Fields} (h : m.toFields final = .ok doc) :
    doc = m.document (m.searchOf final) := by
  by_cases hl : m.limit = 0
  · simp [toFields, searchFields, hl] at h
  · by_cases hs : final = true ∧ m.searcher = none
    · simp [toFields, searchFields, hl, hs] at h
    · have hdocument := toFields_eq hl fun hfinal hnone => hs ⟨hfinal, hnone⟩
      rw [hdocument] at h
      exact (Except.ok.inj h).symm

end Model

namespace Draft

variable {d : Draft} {c : Constraint}

/-- A constraint that has a name keeps it, and no name is drawn. -/
theorem addConstraint_of_named {name : String} (h : c.name = some name) :
    d.addConstraint c = ⟨d.model.addConstraint c, d.names⟩ := by
  simp [addConstraint, h, modify]

/-- A constraint without a name gets the last one of some names that are drawn. -/
theorem addConstraint_of_unnamed (h : c.name = none) : ∃ k ≤ d.model.constraints.length,
    d.addConstraint c = ⟨d.model.addConstraint (c.withName (d.names.nth k)), d.names.drop (k + 1)⟩ ∧
      (d.names.NeverRepeats → d.names.nth k ∉ d.model.constraintNames) := by
  obtain ⟨k, hk, heq, -, -⟩ := d.model.freshName_cases d.model.constraints.length d.names
  refine ⟨k, hk, ?_, fun hs => ?_⟩
  · simp only [addConstraint, h, heq]
  · have hfresh := Model.freshName_notMem (hs.nodup_take (d.model.constraints.length + 1))
    rwa [heq] at hfresh

end Draft

/-! ## Where names come from -/

/-- Where a constraint of a model comes from, and with it its name. -/
inductive Origin where
  /-- It was read from an entry of a document. -/
  | document (entry : Json)
  /-- It was added under a name. -/
  | caller
  /-- It was added without a name, and one was drawn for it. -/
  | source

/-- The document has no name for the constraint: none at all, or null. -/
def Origin.Nameless : Origin → Prop
  | document entry => entry.get? "name" = none ∨ entry.get? "name" = some .null
  | _ => False

/-- Where a constraint that is added has its name from. -/
def Origin.ofAdded (c : Constraint) : Origin := if c.name.isSome then .caller else .source

theorem Origin.not_nameless_ofAdded (c : Constraint) : ¬ (ofAdded c).Nameless := by
  unfold ofAdded
  split <;> exact id

/-- The origins of the constraints that a call adds. -/
def Call.origins : Call → List Origin
  | .addConstraint c => [.ofAdded c]
  | _ => []

namespace Draft

/-- How a draft came about, with the origins of its constraints in order. It starts out empty or with the model of a
document; then there are calls, and the source of names may be replaced by another one of the given kind. -/
inductive Traced (Kind : NameSource → Prop) : Draft → List Origin → Prop
  | new : Traced Kind {} []
  | load {doc : Fields} {m : Model} (h : Model.ofFields doc = .ok m) :
      Traced Kind (.ofModel m) ((Model.items doc "constraint").map .document)
  | call {d : Draft} {origins : List Origin} (h : Traced Kind d origins) (call : Call) :
      Traced Kind (d.apply call) (origins ++ call.origins)
  | useNames {d : Draft} {origins : List Origin} (h : Traced Kind d origins) {s : NameSource} (hs : Kind s) :
      Traced Kind { d with names := s } origins

variable {d : Draft} {origins : List Origin} {c : Constraint}

/-- **What a call does to the constraints**: it adds one, or it leaves them and the source of names as they are. -/
theorem apply_cases (d : Draft) (call : Call) : (∃ c, call = .addConstraint c) ∨
    call.origins = [] ∧ (d.apply call).model.constraints = d.model.constraints ∧ (d.apply call).names = d.names := by
  cases call with
  | addConstraint c => exact Or.inl ⟨c, rfl⟩
  | _ => exact Or.inr ⟨rfl, rfl, rfl⟩

/-! ### Constraints without a name -/

/-- A constraint that was read has no name iff its entry has none for it. -/
theorem name_eq_none_iff_of_ofFields {vars : List Variable} {e : Fields} (h : Constraint.ofFields vars e = .ok c) :
    c.name = none ↔ (Origin.document (.obj e)).Nameless := by
  obtain ⟨hname, -⟩ := Constraint.ofFields_eq_ok.1 h
  show _ ↔ e.get? "name" = none ∨ e.get? "name" = some .null
  rcases Fields.string?_eq_ok.1 hname with ⟨hnone, hget⟩ | ⟨name, hget, hsome⟩
  · exact ⟨fun _ => hget, fun _ => hnone⟩
  · simp [hget, hsome]

/-- A constraint that is added has a name in the end. -/
theorem exists_addConstraint (d : Draft) (c : Constraint) : ∃ c',
    (d.addConstraint c).model.constraints = d.model.constraints ++ [c'] ∧ c'.name ≠ none := by
  cases hc : c.name with
  | some name =>
    rw [addConstraint_of_named hc]
    exact ⟨c, rfl, by simp [hc]⟩
  | none =>
    obtain ⟨k, -, heq, -⟩ := addConstraint_of_unnamed (d := d) hc
    rw [heq]
    exact ⟨_, rfl, Option.some_ne_none _⟩

/-- **A constraint has no name iff it was read from an entry without one.** -/
theorem Traced.name_eq_none_iff {Kind : NameSource → Prop} (h : d.Traced Kind origins) :
    List.Forall₂ (fun c o => c.name = none ↔ o.Nameless) d.model.constraints origins := by
  induction h with
  | new => exact .nil
  | load h =>
    have hread := (Model.readFrom_of_ofFields h).constraints
    rw [List.forall₂_map_right_iff]
    refine hread.flip.imp ?_
    rintro c entry ⟨e, rfl, hc⟩
    exact name_eq_none_iff_of_ofFields hc
  | @call d origins _ call ih =>
    rcases d.apply_cases call with ⟨c, rfl⟩ | ⟨horigins, hconstraints, -⟩
    · obtain ⟨c', hconstraints, hname⟩ := d.exists_addConstraint c
      rw [apply, hconstraints]
      exact List.rel_append ih (.cons (iff_of_false hname (Origin.not_nameless_ofAdded c)) .nil)
    · rw [horigins, hconstraints, List.append_nil]
      exact ih
  | useNames _ _ ih => exact ih

/-- **Only a constraint of a document can be without a name, and is so iff its entry there has none.** In every document
of the model such a constraint has null for its name, and each other one has a text. -/
theorem unnamed_iff_of_traced {Kind : NameSource → Prop} (h : d.Traced Kind origins) :
    List.Forall₂ (fun c o => c.name = none ↔ o.Nameless) d.model.constraints origins ∧
    ∀ final doc, d.model.toFields final = .ok doc → ∃ entries, doc.get? "constraint" = some (.arr entries) ∧
      List.Forall₂ (fun entry o => (o.Nameless → entry.get? "name" = some .null) ∧
        (¬ o.Nameless → ∃ name, entry.get? "name" = some (.str name))) entries origins := by
  have hnames := h.name_eq_none_iff
  refine ⟨hnames, fun final doc hdoc => ?_⟩
  obtain rfl := Model.eq_document_of_toFields hdoc
  refine ⟨_, d.model.get?_document_constraint _, List.forall₂_map_left_iff.2 (hnames.imp fun c o hname => ?_)⟩
  have hentry : (Json.obj c.toFields).get? "name" = some (.ofString? c.name) := Constraint.get?_toFields_name
  rw [hentry, ← hname]
  cases c.name with
  | none => exact ⟨fun _ => rfl, fun h => absurd rfl h⟩
  | some name => exact ⟨fun h => absurd h (Option.some_ne_none name), fun _ => ⟨name, rfl⟩⟩

/-- A relation without a name, and nothing else. -/
def namelessEntry : Json := .obj [("type", .str "rel"), ("expr", .str "x > 0")]

/-- The document of a model with that relation only. -/
def namelessDocument : Fields := [("constraint", .arr [namelessEntry])]

/-- What that document says. -/
def namelessModel : Model := { constraints := [⟨none, .relation "x > 0" .integer⟩] }

theorem ofFields_namelessDocument : Model.ofFields namelessDocument = .ok namelessModel := by rfl

/-- **A model of that document has a constraint without a name, and writes null for it.** -/
theorem unnamed_of_namelessDocument : Traced (fun _ => True) (ofModel namelessModel) [.document namelessEntry] ∧
    (∃ c ∈ (ofModel namelessModel).model.constraints, c.name = none) ∧
    ∃ doc entry, (ofModel namelessModel).model.toFields false = .ok doc ∧
      OrderedMap.get? doc "constraint" = some (.arr [entry]) ∧ entry.get? "name" = some .null :=
  ⟨.load ofFields_namelessDocument, ⟨_, List.mem_singleton_self _, rfl⟩, _, _, rfl, rfl, rfl⟩

/-- The document is read, and two relations are added, the first one under the name that the source would give. -/
def namingSample : Draft :=
  ((ofModel namelessModel).apply
    (.addConstraint ((Constraint.unnamed (.relation "x > 1" .integer)).withName "c0"))).apply
    (.addConstraint (.unnamed (.relation "x > 2" .integer)))

/-- Where its constraints come from. -/
def originsSample : List Origin := [.document namelessEntry, .caller, .source]

theorem traced_namingSample {Kind : NameSource → Prop} : namingSample.Traced Kind originsSample :=
  .call (.call (.load ofFields_namelessDocument)
    (.addConstraint ((Constraint.unnamed (.relation "x > 1" .integer)).withName "c0")))
    (.addConstraint (.unnamed (.relation "x > 2" .integer)))

theorem unnamed_iff_of_traced_namingSample :
    List.Forall₂ (fun c o => c.name = none ↔ o.Nameless) namingSample.model.constraints originsSample ∧
    ∀ final doc, namingSample.model.toFields final = .ok doc → ∃ entries, doc.get? "constraint" = some (.arr entries) ∧
      List.Forall₂ (fun entry o => (o.Nameless → entry.get? "name" = some .null) ∧
        (¬ o.Nameless → ∃ name, entry.get? "name" = some (.str name))) entries originsSample :=
  have htraced : namingSample.Traced (fun _ => True) originsSample := traced_namingSample
  unnamed_iff_of_traced htraced

/-! ### Constraints of one name -/

/-- Each constraint has its origin, and none has a name from the source that an earlier one has. -/
structure NamedApart (constraints : List Constraint) (origins : List Origin) : Prop where
  length : origins.length = constraints.length
  apart : (constraints.zip origins).Pairwise fun earlier later => earlier.1.name = later.1.name → later.2 ≠ .source

section NamedApart

variable {constraints : List Constraint}

theorem NamedApart.append (h : NamedApart constraints origins) {o : Origin}
    (hnew : o = .source → ∀ earlier ∈ constraints, earlier.name ≠ c.name) :
    NamedApart (constraints ++ [c]) (origins ++ [o]) := by
  refine ⟨by simp [h.length], ?_⟩
  rw [List.zip_append h.length.symm, List.pairwise_append]
  refine ⟨h.apart, by simp, ?_⟩
  rintro ⟨earlier, o'⟩ hearlier later hlater hname ho
  obtain rfl := List.mem_singleton.1 hlater
  exact hnew ho earlier (List.of_mem_zip hearlier).1 hname

/-- The constraints of a document are as they are: none has its name from a source. -/
theorem namedApart_document {entries : List Json} (h : entries.length = constraints.length) :
    NamedApart constraints (entries.map .document) := by
  refine ⟨by simpa using h, ?_⟩
  refine List.pairwise_iff_forall_sublist.2 fun {earlier later} hsub _ => ?_
  have hlater : later ∈ constraints.zip (entries.map .document) := hsub.subset (by simp)
  obtain ⟨entry, -, hentry⟩ := List.mem_map.1 (List.of_mem_zip hlater).2
  rw [← hentry]
  exact Origin.noConfusion

/-- **A constraint that is added gets no name that is there already**, unless it came with it. -/
theorem namedApart_addConstraint (h : NamedApart d.model.constraints origins) (hs : d.names.NeverRepeats)
    (c : Constraint) : NamedApart (d.addConstraint c).model.constraints (origins ++ [.ofAdded c]) ∧
      (d.addConstraint c).names.NeverRepeats := by
  cases hc : c.name with
  | some name =>
    rw [addConstraint_of_named hc]
    exact ⟨h.append fun ho => by simp [Origin.ofAdded, hc] at ho, hs⟩
  | none =>
    obtain ⟨k, -, heq, hfresh⟩ := addConstraint_of_unnamed (d := d) hc
    rw [heq]
    refine ⟨h.append fun _ earlier hearlier hname => ?_, hs.drop (k + 1)⟩
    exact hfresh hs (Model.mem_constraintNames.2 ⟨earlier, hearlier, hname⟩)

theorem namedApart_apply (h : NamedApart d.model.constraints origins) (hs : d.names.NeverRepeats) (call : Call) :
    NamedApart (d.apply call).model.constraints (origins ++ call.origins) ∧ (d.apply call).names.NeverRepeats := by
  rcases d.apply_cases call with ⟨c, rfl⟩ | ⟨horigins, hconstraints, hnames⟩
  · exact namedApart_addConstraint h hs c
  · rw [horigins, hconstraints, hnames, List.append_nil]
    exact ⟨h, hs⟩

theorem neverRepeats_standard : NameSource.standard.NeverRepeats := NameSource.neverRepeats_counting "c" 0

/-- **However a draft came about, no source gave a name twice.** -/
theorem Traced.namedApart (h : d.Traced NameSource.NeverRepeats origins) :
    NamedApart d.model.constraints origins ∧ d.names.NeverRepeats := by
  induction h with
  | new => exact ⟨⟨rfl, .nil⟩, neverRepeats_standard⟩
  | load h => exact ⟨namedApart_document (Model.readFrom_of_ofFields h).constraints.length_eq, neverRepeats_standard⟩
  | call _ call ih => exact namedApart_apply ih.1 ih.2 call
  | useNames _ hs ih => exact ⟨ih.1, hs⟩

end NamedApart

/-- **Names from a source that never repeats itself never collide with what is there.** A constraint without a name gets
one that no constraint of the model has, and at most one name more is drawn than there are constraints; a constraint
with a name keeps it and nothing is drawn. A stem with a count is such a source. However a draft came about, if two of
its constraints have the same name then the later one got it from its caller or comes from a document. -/
theorem drawnNames_apart :
    (∀ (d : Draft) (c : Constraint), c.name = none → d.names.NeverRepeats → ∃ k ≤ d.model.constraints.length,
      d.addConstraint c = ⟨d.model.addConstraint (c.withName (d.names.nth k)), d.names.drop (k + 1)⟩ ∧
        ∀ other ∈ d.model.constraints, other.name ≠ some (d.names.nth k)) ∧
    (∀ (d : Draft) (c : Constraint) (name : String), c.name = some name →
      d.addConstraint c = ⟨d.model.addConstraint c, d.names⟩) ∧
    (∀ stem drawn, ((NameSource.counting stem).drop drawn).NeverRepeats) ∧
    ∀ (d : Draft) (origins : List Origin), d.Traced NameSource.NeverRepeats origins →
      origins.length = d.model.constraints.length ∧
      (d.model.constraints.zip origins).Pairwise fun earlier later =>
        earlier.1.name = later.1.name → later.2 = .caller ∨ ∃ entry, later.2 = .document entry := by
  refine ⟨fun d c hc hs => ?_, fun d c name => addConstraint_of_named, NameSource.neverRepeats_counting,
    fun d origins htraced => ?_⟩
  · obtain ⟨k, hk, heq, hfresh⟩ := addConstraint_of_unnamed (d := d) hc
    refine ⟨k, hk, heq, fun other hother hname => ?_⟩
    exact hfresh hs (Model.mem_constraintNames.2 ⟨other, hother, hname⟩)
  · obtain ⟨hlength, hapart⟩ := htraced.namedApart.1
    refine ⟨hlength, hapart.imp fun {earlier later} hne hname => ?_⟩
    cases ho : later.2 with
    | document entry => exact Or.inr ⟨entry, rfl⟩
    | caller => exact Or.inl rfl
    | source => exact absurd ho (hne hname)

theorem drawnNames_apart_namingSample :
    namingSample.model.constraints.map Constraint.name = [none, some "c0", some "c1"] ∧
    (∃ k ≤ namingSample.model.constraints.length,
      namingSample.addConstraint (.unnamed (.sorted .ascending "a")) =
          ⟨namingSample.model.addConstraint ((Constraint.unnamed (.sorted .ascending "a")).withName
            (namingSample.names.nth k)), namingSample.names.drop (k + 1)⟩ ∧
        ∀ other ∈ namingSample.model.constraints, other.name ≠ some (namingSample.names.nth k)) ∧
    (namingSample.model.constraints.zip originsSample).Pairwise fun earlier later =>
      earlier.1.name = later.1.name → later.2 = .caller ∨ ∃ entry, later.2 = .document entry := by
  obtain ⟨hunnamed, -, -, htraced⟩ := drawnNames_apart
  have hsource : namingSample.names.NeverRepeats := NameSource.neverRepeats_counting "c" 2
  exact ⟨by decide +kernel, hunnamed namingSample _ rfl hsource, (htraced namingSample _ traced_namingSample).2⟩

end Draft

end SolverClient
