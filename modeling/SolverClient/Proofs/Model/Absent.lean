import SolverClient.Proofs.Absent
import SolverClient.Proofs.Model.Document

/-!
# Documents without nulls

From a document all nulls can be taken out that stand under a key of the document, of one of its entries, or of a cutoff
at any depth (`Model.withoutNulls`). That changes nothing for the reader as long as no null stands where a cutoff may
stand; there, and only there, a null is not as good as nothing, and the document is refused
(`Model.ofFields_eq_ok_iff_withoutNulls`).
-/

namespace SolverClient

/-! ## Taking nulls out -/

namespace Fields

/-- The object without the keys that are null. -/
def withoutNulls (d : Fields) : Fields := d.filter fun e => (Domain.presentField d e.1).isSome

variable (d : Fields) (key : String)

theorem get?_withoutNulls : (withoutNulls d).get? key = Domain.presentField d key := by
  rw [withoutNulls, OrderedMap.get?_filter (fun key => (Domain.presentField d key).isSome) d key]
  cases h : Domain.presentField d key with
  | none => rfl
  | some v => exact Domain.get?_of_presentField h

theorem presentField_withoutNulls : Domain.presentField (withoutNulls d) key = Domain.presentField d key := by
  refine Option.ext fun v => ?_
  rw [Domain.presentField_eq_some_iff, get?_withoutNulls, and_iff_left_of_imp]
  exact fun h => (Domain.presentField_eq_some_iff.1 h).2

theorem alike_withoutNulls : d.Alike (withoutNulls d) := fun key => (presentField_withoutNulls d key).symm

/-- Values that are replaced, null by null only, are there as before. -/
theorem presentField_map {f : String → Json → Json} (hf : ∀ key v, f key v = .null ↔ v = .null) :
    Domain.presentField (d.map fun e => (e.1, f e.1 e.2)) key = (Domain.presentField d key).map (f key) := by
  refine Option.ext fun w => ?_
  simp only [Domain.presentField_eq_some_iff, OrderedMap.get?_map, Option.map_eq_some_iff]
  constructor
  · rintro ⟨⟨v, hv, rfl⟩, hn⟩
    exact ⟨v, ⟨hv, fun h => hn ((hf key v).2 h)⟩, rfl⟩
  · rintro ⟨v, ⟨hv, hn⟩, rfl⟩
    exact ⟨⟨v, hv, rfl⟩, fun h => hn ((hf key v).1 h)⟩

end Fields

/-- The value without the keys that are null, if it is an object. -/
def Json.withoutNulls : Json → Json
  | obj d => obj (Fields.withoutNulls d)
  | v => v

/-! ### Cutoffs -/

namespace Cutoff

mutual

/-- The value without the keys that are null, if it is an object, and so for its parts. -/
def withoutNulls : Json → Json
  | .obj d => .obj (Fields.withoutNulls (partsWithoutNulls d))
  | v => v

/-- The object with the nulls taken out of its parts. -/
def partsWithoutNulls : List (String × Json) → List (String × Json)
  | [] => []
  | (key, v) :: d => (key, if key ∈ partKeys then withoutNulls v else v) :: partsWithoutNulls d

end

theorem partsWithoutNulls_eq_map (d : Fields) :
    partsWithoutNulls d = d.map fun e => (e.1, if e.1 ∈ partKeys then withoutNulls e.2 else e.2) := by
  induction d with
  | nil => rfl
  | cons entry d ih => rw [partsWithoutNulls, ih, List.map_cons]

theorem withoutNulls_eq_obj_iff {v : Json} {e : Fields} :
    withoutNulls v = .obj e ↔ ∃ d, v = .obj d ∧ e = Fields.withoutNulls (partsWithoutNulls d) := by
  cases v <;> simp [withoutNulls, eq_comm]

theorem withoutNulls_eq_null_iff {v : Json} : withoutNulls v = .null ↔ v = .null := by
  cases v <;> simp [withoutNulls]

/-- A value that is there is there without its own nulls. -/
theorem presentField_partsWithoutNulls (d : Fields) (key : String) : Domain.presentField (partsWithoutNulls d) key =
    (Domain.presentField d key).map fun v => if key ∈ partKeys then withoutNulls v else v := by
  rw [partsWithoutNulls_eq_map]
  refine Fields.presentField_map d key (f := fun key v => if key ∈ partKeys then withoutNulls v else v) fun key v => ?_
  split
  · exact withoutNulls_eq_null_iff
  · exact Iff.rfl

theorem presentField_of_notMem_partKeys (d : Fields) {key : String} (hkey : key ∉ partKeys) :
    Domain.presentField d key = Domain.presentField (Fields.withoutNulls (partsWithoutNulls d)) key := by
  rw [Fields.presentField_withoutNulls, presentField_partsWithoutNulls]
  simp [hkey]

theorem get?_of_mem_partKeys (d : Fields) {key : String} (hkey : key ∈ partKeys) :
    (Fields.withoutNulls (partsWithoutNulls d)).get? key = (Domain.presentField d key).map withoutNulls := by
  rw [Fields.get?_withoutNulls, presentField_partsWithoutNulls]
  simp [hkey]

theorem simulation_withoutNulls : Simulation fun d e => e = Fields.withoutNulls (partsWithoutNulls d) where
  values := by
    rintro d e rfl key hkey
    exact presentField_of_notMem_partKeys d hkey
  parts := by
    rintro d e rfl key hkey d' hd'
    refine ⟨_, ?_, rfl⟩
    rw [get?_of_mem_partKeys d hkey, Domain.presentField_of_get? hd' (fun h => by cases h)]
    rfl

theorem simulation_of_withoutNulls : Simulation fun e d => e = Fields.withoutNulls (partsWithoutNulls d) where
  values := by
    rintro e d rfl key hkey
    exact (presentField_of_notMem_partKeys d hkey).symm
  parts := by
    rintro e d rfl key hkey e' he'
    rw [get?_of_mem_partKeys d hkey, Option.map_eq_some_iff] at he'
    obtain ⟨v, hv, he'⟩ := he'
    obtain ⟨d', rfl, rfl⟩ := withoutNulls_eq_obj_iff.1 he'
    exact ⟨d', Domain.get?_of_presentField hv, rfl⟩

/-- **A cutoff is read with or without its nulls.** -/
theorem ofFields_withoutNulls (d : Fields) :
    SameSuccess (ofFields d) (ofFields (Fields.withoutNulls (partsWithoutNulls d))) := by
  intro c
  rw [ofFields_eq_ok, ofFields_eq_ok]
  exact ⟨fun h => describes_of_simulation simulation_withoutNulls h rfl,
    fun h => describes_of_simulation simulation_of_withoutNulls h rfl⟩

end Cutoff

/-! ### Documents -/

namespace Model

/-- The keys of a document that lists of objects stand under. -/
def listKeys : List String := ["var", "constraint", "specific"]

/-- The keys of a document that a cutoff may stand under. -/
def cutoffKeys : List String := ["cutoff", "meta_cutoff"]

/-- The value under a key of a document, with the nulls taken out of the objects in it. -/
def valueWithoutNulls (key : String) : Json → Json
  | .arr entries => if key ∈ listKeys then .arr (entries.map Json.withoutNulls) else .arr entries
  | .obj d => if key ∈ cutoffKeys then Cutoff.withoutNulls (.obj d) else .obj d
  | v => v

/-- The document without the keys that are null in it, in an entry of it, or in a cutoff at any depth. -/
def withoutNulls (d : Fields) : Fields := Fields.withoutNulls (d.map fun e => (e.1, valueWithoutNulls e.1 e.2))

theorem valueWithoutNulls_eq_null_iff {key : String} {v : Json} : valueWithoutNulls key v = .null ↔ v = .null := by
  cases v with
  | arr entries => simp only [valueWithoutNulls]; split <;> simp
  | obj d => simp only [valueWithoutNulls]; split <;> simp [Cutoff.withoutNulls]
  | _ => simp [valueWithoutNulls]

variable (d : Fields)

theorem get?_withoutNulls (key : String) :
    (withoutNulls d).get? key = (Domain.presentField d key).map (valueWithoutNulls key) := by
  rw [withoutNulls, Fields.get?_withoutNulls]
  exact Fields.presentField_map d key fun key v => valueWithoutNulls_eq_null_iff

theorem presentField_withoutNulls (key : String) :
    Domain.presentField (withoutNulls d) key = (Domain.presentField d key).map (valueWithoutNulls key) := by
  rw [withoutNulls, Fields.presentField_withoutNulls, ← Fields.get?_withoutNulls]
  exact get?_withoutNulls d key

/-- Under a key without objects the value stays as it is. -/
theorem presentField_eq_of_notMem {key : String} (hlist : key ∉ listKeys) (hcutoff : key ∉ cutoffKeys) :
    Domain.presentField d key = Domain.presentField (withoutNulls d) key := by
  have hsame : valueWithoutNulls key = id := by
    funext v
    cases v <;> simp only [valueWithoutNulls, if_neg hlist, if_neg hcutoff, id]
  rw [presentField_withoutNulls, hsame, Option.map_id]
  rfl

/-! ## Reading without nulls -/

theorem arrayOrEmpty_withoutNulls {key : String} (hkey : key ∈ listKeys) {entries : List Json} :
    (withoutNulls d).arrayOrEmpty key = .ok entries ↔
      ∃ items, d.arrayOrEmpty key = .ok items ∧ entries = items.map Json.withoutNulls := by
  have hcutoff : key ∉ cutoffKeys := by
    simp only [listKeys, List.mem_cons, List.not_mem_nil, or_false] at hkey
    rcases hkey with rfl | rfl | rfl <;> decide
  simp only [Fields.arrayOrEmpty_eq_ok_iff, presentField_withoutNulls]
  cases Domain.presentField d key with
  | none => simp
  | some v => cases v <;> simp [valueWithoutNulls, hkey, hcutoff, eq_comm]

/-- **A list of objects is read with or without their nulls**, if each object is. -/
theorem entriesOf_withoutNulls {α : Type} {key : String} (hkey : key ∈ listKeys)
    {read : Fields → Except ModelError α} (hread : ∀ e, SameSuccess (read e) (read (Fields.withoutNulls e))) :
    SameSuccess (entriesOf d key read) (entriesOf (withoutNulls d) key read) := by
  have hentry : ∀ v, SameSuccess (Json.fieldsOf key v >>= read) (Json.fieldsOf key (Json.withoutNulls v) >>= read) := by
    intro v
    cases v with
    | obj e => exact hread e
    | _ => exact .rfl
  intro l
  simp only [entriesOf, Except.bind_eq_ok, arrayOrEmpty_withoutNulls d hkey]
  constructor
  · rintro ⟨items, hitems, hl⟩
    exact ⟨_, ⟨items, hitems, rfl⟩, (SameSuccess.mapM hentry items l).1 hl⟩
  · rintro ⟨_, ⟨items, hitems, rfl⟩, hl⟩
    exact ⟨items, hitems, (SameSuccess.mapM hentry items l).2 hl⟩

section Reading

variable {d}

/-- **A cutoff is read with or without its nulls**, if it is not null itself. -/
theorem cutoffOf_withoutNulls (hplain : d.get? "cutoff" ≠ some .null) (hcomposed : d.get? "meta_cutoff" ≠ some .null) :
    SameSuccess (cutoffOf d) (cutoffOf (withoutNulls d)) := by
  have hread {key : String} (hkey : key ∈ cutoffKeys) (v : Json) :
      SameSuccess (do return some (← Cutoff.ofFields (← Json.fieldsOf key v)))
        (do return some (← Cutoff.ofFields (← Json.fieldsOf key (valueWithoutNulls key v)))) := by
    cases v with
    | obj e =>
      rw [valueWithoutNulls, if_pos hkey]
      exact (Cutoff.ofFields_withoutNulls e).bind fun _ => .rfl
    | arr entries =>
      have hlist : key ∉ listKeys := by
        rcases List.mem_pair.1 hkey with rfl | rfl <;> decide
      rw [valueWithoutNulls, if_neg hlist]
      exact .rfl
    | _ => exact .rfl
  have hplainKey : "cutoff" ∈ cutoffKeys := by decide
  have hmeta : "meta_cutoff" ∈ cutoffKeys := by decide
  unfold cutoffOf
  rw [get?_withoutNulls, get?_withoutNulls, Domain.presentField_eq_get? hplain, Domain.presentField_eq_get? hcomposed]
  cases d.get? "cutoff" with
  | none =>
    cases d.get? "meta_cutoff" with
    | none => exact .rfl
    | some v => exact hread hmeta v
  | some v =>
    cases d.get? "meta_cutoff" with
    | none => exact hread hplainKey v
    | some w => exact .rfl

/-- **A null where a cutoff may stand is refused.** -/
theorem ne_null_of_cutoffOf {o : Option Cutoff} (h : cutoffOf d = .ok o) :
    d.get? "cutoff" ≠ some .null ∧ d.get? "meta_cutoff" ≠ some .null := by
  constructor
  · intro hnull
    rw [cutoffOf, hnull] at h
    cases hm : d.get? "meta_cutoff" <;> rw [hm] at h <;> cases h
  · intro hnull
    rw [cutoffOf, hnull] at h
    cases hc : d.get? "cutoff" <;> rw [hc] at h <;> cases h

/-- **A document is read with or without its nulls**, if none stands where a cutoff may stand. -/
theorem ofFields_withoutNulls (hplain : d.get? "cutoff" ≠ some .null) (hcomposed : d.get? "meta_cutoff" ≠ some .null) :
    SameSuccess (ofFields d) (ofFields (withoutNulls d)) := by
  have hkept (key : String) (hlist : key ∉ listKeys) (hcutoff : key ∉ cutoffKeys) :=
    presentField_eq_of_notMem d hlist hcutoff
  have hlimit : SameSuccess (limitOf d) (limitOf (withoutNulls d)) :=
    (Fields.integer?_congr (hkept "solution_limit" (by decide) (by decide))).bind fun _ => .rfl
  have hsearcher : SameSuccess (searcherOf d) (searcherOf (withoutNulls d)) :=
    (Fields.string?_congr (hkept "searcher" (by decide) (by decide))).bind fun _ => .rfl
  have hcallback := Fields.string?_congr (hkept "callback_url" (by decide) (by decide))
  exact (entriesOf_withoutNulls d (by decide) fun e => Variable.ofFields_congr e.alike_withoutNulls).bind fun vars =>
    (entriesOf_withoutNulls d (by decide) fun e => Constraint.ofFields_congr e.alike_withoutNulls _).bind fun _ =>
    (entriesOf_withoutNulls d (by decide) fun e => Objective.ofFields_congr e.alike_withoutNulls _).bind fun _ =>
    hlimit.bind fun _ => hsearcher.bind fun _ => (cutoffOf_withoutNulls hplain hcomposed).bind fun _ =>
    hcallback.bind fun _ => .rfl

end Reading

/-- **Null means absent in a document, except for a cutoff.** -/
theorem ofFields_eq_ok_iff_withoutNulls (d : Fields) (m : Model) : ofFields d = .ok m ↔
    ofFields (withoutNulls d) = .ok m ∧ d.get? "cutoff" ≠ some .null ∧ d.get? "meta_cutoff" ≠ some .null := by
  constructor
  · intro h
    obtain ⟨-, -, -, -, -, -, -, hcutoff, -⟩ := ofFields_cases h
    obtain ⟨hplain, hcomposed⟩ := ne_null_of_cutoffOf hcutoff
    exact ⟨(ofFields_withoutNulls hplain hcomposed m).1 h, hplain, hcomposed⟩
  · rintro ⟨h, hplain, hcomposed⟩
    exact (ofFields_withoutNulls hplain hcomposed m).2 h

/-- **A cutoff that is null is refused**, while the document without it is that of an empty model. -/
theorem refused_of_nullCutoff : ofFields [("cutoff", .null)] = .error (.malformed "cutoff" (.expected .object)) ∧
    withoutNulls [("cutoff", .null)] = [] ∧ ofFields [] = .ok .empty :=
  ⟨rfl, rfl, rfl⟩

end Model

end SolverClient
