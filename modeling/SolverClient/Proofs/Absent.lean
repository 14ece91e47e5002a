import SolverClient.Proofs.Constraint.Document
import SolverClient.Proofs.Cutoff
import SolverClient.Proofs.Objective
import SolverClient.Proofs.Variable.Document

/-!
# A null is as good as nothing

Two objects are **alike** (`Fields.Alike`) if each key has the same value in both, where a null is no value. An optional
field is read from both in the same way (`Fields.optional_congr`). A required field is read from both or from neither
(`Fields.required_congr`), though it is refused for different reasons. So variables (`Variable.ofFields_congr`),
constraints (`Constraint.ofFields_congr`) and objectives (`Objective.ofFields_congr`) are read with the same success
(`SameSuccess`) from objects that are alike, and so are cutoffs if their parts are alike all the way down
(`Cutoff.describes_of_simulation`).
-/

namespace SolverClient

/-! ## The same success -/

/-- The outcomes are the same, unless both are refusals. -/
def SameSuccess {ε α : Type} (x y : Except ε α) : Prop := ∀ a, x = .ok a ↔ y = .ok a

namespace SameSuccess

variable {ε α β : Type} {x y : Except ε α}

theorem rfl : SameSuccess x x := fun _ => Iff.rfl

/-- Chains have the same success if their first steps do and so do the rests. -/
theorem bind {f g : α → Except ε β} (h : SameSuccess x y) (hfg : ∀ a, SameSuccess (f a) (g a)) :
    SameSuccess (x >>= f) (y >>= g) := by
  intro b
  rw [Except.bind_eq_ok, Except.bind_eq_ok]
  exact exists_congr fun a => and_congr (h a) (hfg a b)

/-- Lists are read with the same success if their items are. -/
theorem mapM {f : α → Except ε β} {g : α → α} (h : ∀ a, SameSuccess (f a) (f (g a))) (l : List α) :
    SameSuccess (l.mapM f) ((l.map g).mapM f) := by
  intro r
  rw [Except.mapM_eq_ok, Except.mapM_eq_ok, List.forall₂_map_left_iff]
  exact ⟨fun hr => hr.imp fun a b => (h a b).1, fun hr => hr.imp fun a b => (h a b).2⟩

end SameSuccess

/-! ## Fields -/

/-- Each key has the same value in both objects, where a null is no value. -/
def Fields.Alike (d e : Fields) : Prop := ∀ key, Domain.presentField d key = Domain.presentField e key

namespace Domain

variable {d : Fields} {key : String}

/-- A value that is not null is there. -/
theorem presentField_eq_get? (h : d.get? key ≠ some .null) : presentField d key = d.get? key := by
  refine Option.ext fun v => ?_
  rw [presentField_eq_some_iff, and_iff_left_of_imp]
  exact fun hv hn => h (hn ▸ hv)

end Domain

namespace Fields

variable {α : Type} {what : Expectation} {read : Json → Option α} {d e : Fields} {key : String}

theorem Alike.symm (h : d.Alike e) : e.Alike d := fun key => (h key).symm

/-- A reader that refuses null finds what it reads among the values that are there. -/
theorem exists_get?_iff (hnull : read .null = none) {a : α} : (∃ v, d.get? key = some v ∧ read v = some a) ↔
    ∃ v, Domain.presentField d key = some v ∧ read v = some a := by
  simp only [Domain.presentField_eq_some_iff, and_assoc]
  refine exists_congr fun v => and_congr_right fun _ => (and_iff_right_of_imp fun ha hn => ?_).symm
  rw [hn, hnull] at ha
  cases ha

/-- An array is read as its items, and nothing or null as no items. -/
theorem arrayOrEmpty_eq_ok_iff {items : List Json} : d.arrayOrEmpty key = .ok items ↔
    (Domain.presentField d key = none ∧ items = []) ∨ Domain.presentField d key = some (.arr items) := by
  constructor
  · intro h
    obtain ⟨o, ho, rfl⟩ := Except.map_eq_ok.1 h
    rcases optional_eq_ok.1 ho with ⟨rfl, hget⟩ | ⟨v, a, hv, hn, ha, rfl⟩
    · exact Or.inl ⟨Domain.presentField_eq_none_iff.2 hget, by rfl⟩
    · cases v <;> simp only [Json.asArray?, reduceCtorEq, Option.some.injEq] at ha
      subst ha
      exact Or.inr (Domain.presentField_of_get? hv hn)
  · rintro (⟨h, rfl⟩ | h)
    · exact Except.map_eq_ok.2 ⟨none, optional_eq_ok.2 (Or.inl ⟨by rfl, Domain.presentField_eq_none_iff.1 h⟩), by rfl⟩
    · exact arrayOrEmpty_of_get? (Domain.get?_of_presentField h)

section Congr

variable (h : Domain.presentField d key = Domain.presentField e key)
include h

/-- **A required field is read from both objects or from neither**, as null and nothing are both refused. -/
theorem required_congr (hnull : read .null = none) :
    SameSuccess (required what read d key) (required what read e key) := by
  intro a
  rw [required_eq_ok, required_eq_ok, exists_get?_iff hnull, exists_get?_iff hnull, h]

/-- **An optional field is read from both objects alike**, as null and nothing both leave it out. -/
theorem optional_congr : SameSuccess (optional what read d key) (optional what read e key) := by
  intro o
  simp only [optional_eq_ok, ← Domain.presentField_eq_none_iff, ← and_assoc (a := _ = some _),
    ← Domain.presentField_eq_some_iff, h]

theorem string_congr : SameSuccess (d.string key) (e.string key) := required_congr h rfl

theorem string?_congr : SameSuccess (d.string? key) (e.string? key) := optional_congr h

theorem integer_congr : SameSuccess (d.integer key) (e.integer key) := required_congr h rfl

theorem integer?_congr : SameSuccess (d.integer? key) (e.integer? key) := optional_congr h

theorem count_congr : SameSuccess (d.count key) (e.count key) := required_congr h rfl

theorem number_congr : SameSuccess (d.number key) (e.number key) := required_congr h rfl

end Congr

end Fields

/-! ## Variables -/

section Variables

variable {d e : Fields} (h : d.Alike e)
include h

theorem Domain.ofFields_congr (isArray : Bool) : SameSuccess (ofFields isArray d) (ofFields isArray e) := by
  unfold ofFields
  rw [h "domlow", h "domup", h "specific_domain"]
  exact (Fields.string?_congr (h "expr")).bind fun _ => .rfl

namespace Variable

theorem strategyField_congr {α : Type} (ofTag? : String → Option α) (standard : α) (key : String) :
    SameSuccess (strategyField ofTag? standard d key) (strategyField ofTag? standard e key) :=
  (Fields.string?_congr (h key)).bind fun _ => .rfl

theorem valueStrategyOf_congr (kind : ValueKind) : SameSuccess (valueStrategyOf kind d) (valueStrategyOf kind e) :=
  (strategyField_congr h _ _ _).bind fun _ => .rfl

theorem variableStrategyOf_congr (kind : ValueKind) :
    SameSuccess (variableStrategyOf kind d) (variableStrategyOf kind e) :=
  (strategyField_congr h _ _ _).bind fun _ => .rfl

theorem arrayLayoutOf_congr (name : String) (kind : ValueKind) :
    SameSuccess (arrayLayoutOf name kind d) (arrayLayoutOf name kind e) := by
  refine (variableStrategyOf_congr h kind).bind fun strategy => (Fields.string?_congr (h "subtype")).bind fun sub => ?_
  split
  · exact (Fields.count_congr (h "rows")).bind fun rows => (Fields.count_congr (h "cols")).bind fun cols => .rfl
  · exact (Fields.count_congr (h "length")).bind fun _ => .rfl

/-- **A variable is read from both objects or from neither.** -/
theorem ofFields_congr : SameSuccess (ofFields d) (ofFields e) := by
  refine (Fields.string_congr (h "name")).bind fun name => (Fields.string_congr (h "type")).bind fun tag =>
    SameSuccess.rfl.bind fun type => (valueStrategyOf_congr h type.1).bind fun strategy =>
    (Fields.integer?_congr (h "branching_order")).bind fun order => (Domain.ofFields_congr h type.2).bind fun dom => ?_
  cases type.2 with
  | false => exact .rfl
  | true => exact (arrayLayoutOf_congr h name type.1).bind fun _ => .rfl

end Variable

end Variables

/-! ## Constraints and objectives -/

section Constraints

variable {d e : Fields} (h : d.Alike e)
include h

namespace Variable

variable (vars : List Variable) (key : String)

theorem referenced_congr : SameSuccess (referenced vars d key) (referenced vars e key) :=
  (Fields.string_congr (h key)).bind fun _ => .rfl

theorem reference_congr : SameSuccess (reference vars d key) (reference vars e key) :=
  (referenced_congr h vars key).bind fun _ => .rfl

theorem arrayReference_congr : SameSuccess (arrayReference vars d key) (arrayReference vars e key) :=
  (referenced_congr h vars key).bind fun _ => .rfl

theorem matrixReference_congr (s : Selection) :
    SameSuccess (matrixReference vars d key s) (matrixReference vars e key s) :=
  (referenced_congr h vars key).bind fun _ => .rfl

end Variable

theorem Selection.lastOf_congr (key : String) : SameSuccess (lastOf d key) (lastOf e key) :=
  (Fields.count_congr (h key)).bind fun _ => .rfl

theorem Selection.ofFields_congr : SameSuccess (ofFields d) (ofFields e) := by
  have hcount := fun key => Fields.count_congr (h key)
  refine (Fields.string?_congr (h "selection")).bind fun word => ?_
  dsimp only
  split
  · exact .rfl
  split
  · exact (hcount "size").bind fun _ => (hcount "index").bind fun _ => .rfl
  split
  · exact (hcount "size").bind fun _ => (hcount "index").bind fun _ => .rfl
  split
  · exact (hcount "size").bind fun _ => (hcount "offset_start_x").bind fun _ => (hcount "offset_start_y").bind fun _ =>
      (lastOf_congr h "offset_end_x").bind fun _ => (lastOf_congr h "offset_end_y").bind fun _ => .rfl
  · exact .rfl

namespace Demand

theorem exponentOf_congr : SameSuccess (exponentOf d) (exponentOf e) := by
  intro n
  rw [exponentOf_eq_ok, exponentOf_eq_ok, Fields.exists_get?_iff rfl, Fields.exists_get?_iff rfl, h "v2"]

/-- What describes a demand goes on to do so when nulls come or go. -/
theorem Describes.of_alike {vars : List Variable} {tag : String} {demand : Demand} (hd : Describes vars d tag demand) :
    Describes vars e tag demand := by
  have named := fun key name => (Variable.reference_congr h vars key name).1
  have cells := fun key name => (Variable.arrayReference_congr h vars key name).1
  have text := fun key s => (Fields.string_congr (h key) s).1
  have text? := fun key s => (Fields.string?_congr (h key) s).1
  have selection := fun s => (Selection.ofFields_congr h s).1
  cases hd with
  | elementary hx hz => exact .elementary (named _ _ hx) (named _ _ hz)
  | arithmetic hx hy hz => exact .arithmetic (named _ _ hx) (named _ _ hy) (named _ _ hz)
  | power he hx hz => exact .power ((exponentOf_congr h _).1 he) (named _ _ hx) (named _ _ hz)
  | member ha hx => exact .member (cells _ _ ha) (named _ _ hx)
  | element ha hi hx => exact .element (cells _ _ ha) (named _ _ hi) (named _ _ hx)
  | sorted ha => exact .sorted (cells _ _ ha)
  | distinctWhole hs ha => exact .distinctWhole (selection _ hs) (cells _ _ ha)
  | distinctPart hs hne ha =>
    exact .distinctPart (selection _ hs) hne ((Variable.matrixReference_congr h vars _ _ _).1 ha)
  | relation hset hkind hsub hne he => exact .relation (text? _ _ hset) hkind (text? _ _ hsub) hne (text _ _ he)
  | conditional hset hkind hsub hbranch helse hc ht =>
    exact .conditional (text? _ _ hset) hkind (text? _ _ hsub) (text? _ _ hbranch) helse (text _ _ hc) (text _ _ ht)

theorem ofFields_congr (tag : String) (vars : List Variable) :
    SameSuccess (ofFields tag vars d) (ofFields tag vars e) := by
  intro demand
  rw [ofFields_eq_ok, ofFields_eq_ok]
  exact ⟨Describes.of_alike h, Describes.of_alike h.symm⟩

end Demand

/-- **A constraint is read from both objects or from neither.** -/
theorem Constraint.ofFields_congr (vars : List Variable) : SameSuccess (ofFields vars d) (ofFields vars e) :=
  (Fields.string_congr (h "type")).bind fun tag => (Demand.ofFields_congr h tag vars).bind fun _ =>
    (Fields.string?_congr (h "name")).bind fun _ => .rfl

/-- **An objective is read from both objects or from neither.** -/
theorem Objective.ofFields_congr (vars : List Variable) : SameSuccess (ofFields vars d) (ofFields vars e) :=
  have hdirection : SameSuccess (directionOf d) (directionOf e) := (Fields.string_congr (h "type")).bind fun _ => .rfl
  hdirection.bind fun _ => (Variable.reference_congr h vars "var").bind fun _ => .rfl

end Constraints

/-! ## Cutoffs -/

namespace Cutoff

/-- The keys that the parts of a composed cutoff stand under. -/
def partKeys : List String := ["first_cutoff", "second_cutoff", "sub_cutoff"]

/-- Objects that are related have the same values, where a null is no value, and related parts. -/
structure Simulation (R : Fields → Fields → Prop) : Prop where
  values : ∀ {d e}, R d e → ∀ key ∉ partKeys, Domain.presentField d key = Domain.presentField e key
  parts : ∀ {d e}, R d e → ∀ key ∈ partKeys, ∀ d', d.get? key = some (.obj d') →
    ∃ e', e.get? key = some (.obj e') ∧ R d' e'

/-- **What describes a cutoff is simulated by what describes it too.** The induction is on the description, which goes
into the parts as the relation does. -/
theorem describes_of_simulation {R : Fields → Fields → Prop} (hR : Simulation R) {d e : Fields} {c : Cutoff}
    (hd : Describes d c) (hde : R d e) : Describes e c := by
  have text {d e : Fields} (hde : R d e) {s : String} (h : d.string "name" = .ok s) : e.string "name" = .ok s :=
    (Fields.string_congr (hR.values hde "name" (by decide)) s).1 h
  have word {d e : Fields} (hde : R d e) {key : String} (hkey : key ∉ partKeys) {n : Int} (h : d.integer key = .ok n) :
      e.integer key = .ok n := (Fields.integer_congr (hR.values hde key hkey) n).1 h
  induction hd generalizing e with
  | constant tag hv => exact .constant (text hde tag) (word hde (by decide) hv)
  | fibonacci tag => exact .fibonacci (text hde tag)
  | geometric tag hs hb =>
    have hbase := (Fields.number_congr (hR.values hde "base" (by decide)) _).1 hb
    exact .geometric (text hde tag) (word hde (by decide) hs) hbase
  | luby tag hs => exact .luby (text hde tag) (word hde (by decide) hs)
  | linear tag hs => exact .linear (text hde tag) (word hde (by decide) hs)
  | random tag hs hl hu hr =>
    exact .random (text hde tag) (word hde (by decide) hs) (word hde (by decide) hl) (word hde (by decide) hu)
      (word hde (by decide) hr)
  | appender tag he _ hc hf _ first second =>
    obtain ⟨e₁, he₁, h₁⟩ := hR.parts hde _ (by decide) _ he
    obtain ⟨e₂, he₂, h₂⟩ := hR.parts hde _ (by decide) _ hf
    exact .appender (text hde tag) he₁ (first h₁) (word hde (by decide) hc) he₂ (second h₂)
  | merger tag he _ hf _ first second =>
    obtain ⟨e₁, he₁, h₁⟩ := hR.parts hde _ (by decide) _ he
    obtain ⟨e₂, he₂, h₂⟩ := hR.parts hde _ (by decide) _ hf
    exact .merger (text hde tag) he₁ (first h₁) he₂ (second h₂)
  | repeater tag he _ ht sub =>
    obtain ⟨e₁, he₁, h₁⟩ := hR.parts hde _ (by decide) _ he
    exact .repeater (text hde tag) he₁ (sub h₁) (word hde (by decide) ht)

end Cutoff

end SolverClient
