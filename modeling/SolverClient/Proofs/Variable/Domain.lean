import SolverClient.Proofs.Json.WellFormed
import SolverClient.Variable.Document

/-!
# Domains are read back

An object **describes** a domain (`Domain.Describes`) if it holds the values of the domain and nothing of a domain of
another kind. The reader accepts just such objects (`Domain.ofFields_eq_ok`), and the numbers of a domain come from
values there (`Domain.Describes.exists_of_mem_numbers`). From fields that hold just those of a domain under the keys of
domains, a reader finds what is kept of it (`Domain.ofFields_eq_kept`), which is the domain itself if its numbers are
finite (`Domain.kept_of_isFinite`).
-/

namespace SolverClient

namespace Domain

/-- The numbers of a domain. -/
def numbers : Domain → List Numeric
  | bounds low high => [low, high]
  | specific values => values
  | _ => []

section Reading

variable {d : Fields} {key : String}

/-- A value is there if it stands under the key and is not null. -/
theorem presentField_eq_some_iff {v : Json} : presentField d key = some v ↔ d.get? key = some v ∧ v ≠ .null := by
  simp only [presentField, Option.filter_eq_some_iff]
  cases v <;> simp [Json.isNull]

theorem presentField_eq_none_iff : presentField d key = none ↔ d.Missing key := by
  simp only [presentField, Option.filter_eq_none_iff, Fields.Missing]
  cases d.get? key with
  | none => simp
  | some v => cases v <;> simp [Json.isNull]

theorem presentField_of_get? {v : Json} (h : d.get? key = some v) (hn : v ≠ .null) : presentField d key = some v :=
  presentField_eq_some_iff.2 ⟨h, hn⟩

theorem presentField_of_get?_none (h : d.get? key = none) : presentField d key = none :=
  presentField_eq_none_iff.2 (Or.inl h)

theorem presentField_of_ofJson? {v : Json} {n : Numeric} (h : d.get? key = some v) (hv : Numeric.ofJson? v = some n) :
    presentField d key = some v := presentField_of_get? h (by rintro rfl; cases hv)

/-- A value that is there and not null stands in the document. -/
theorem get?_of_presentField {v : Json} (h : presentField d key = some v) : d.get? key = some v :=
  (presentField_eq_some_iff.1 h).1

theorem numericOf_eq_ok {field : String} {v : Json} {n : Numeric} :
    numericOf field v = .ok n ↔ Numeric.ofJson? v = some n := by
  unfold numericOf
  cases h : Numeric.ofJson? v <;> simp

variable {isArray : Bool} {dom : Domain}

/-- The object holds the domain, and nothing of a domain of another kind. -/
inductive Describes (d : Fields) : Domain → Prop
  | unrestricted (hlow : d.Missing "domlow") (hhigh : d.Missing "domup") (hvalues : d.Missing "specific_domain")
      (hexpr : d.Missing "expr") : Describes d .unrestricted
  | bounds {l u : Json} {low high : Numeric} (hl : d.get? "domlow" = some l) (hu : d.get? "domup" = some u)
      (hlow : Numeric.ofJson? l = some low) (hhigh : Numeric.ofJson? u = some high)
      (hvalues : d.Missing "specific_domain") (hexpr : d.Missing "expr") : Describes d (.bounds low high)
  | specific {items : List Json} {values : List Numeric} (hitems : d.get? "specific_domain" = some (.arr items))
      (hvalues : List.Forall₂ (fun v n => Numeric.ofJson? v = some n) items values) (hlow : d.Missing "domlow")
      (hhigh : d.Missing "domup") (hexpr : d.Missing "expr") : Describes d (.specific values)
  | expression {text : String} (htext : d.get? "expr" = some (.str text)) (hlow : d.Missing "domlow")
      (hhigh : d.Missing "domup") (hvalues : d.Missing "specific_domain") : Describes d (.expression text)

/-- What is read was described. -/
theorem describes_of_ofFields (h : ofFields isArray d = .ok dom) :
    Describes d dom ∧ (isArray = true → ∀ text, dom ≠ .expression text) := by
  simp only [ofFields, Except.bind_eq_ok] at h
  obtain ⟨expr, hexpr, h⟩ := h
  -- of the ways in which the fields can be there or not, four are not refused at once
  cases hlow : presentField d "domlow" <;> cases hhigh : presentField d "domup" <;>
    cases hvalues : presentField d "specific_domain" <;> cases expr <;> simp [hlow, hhigh, hvalues] at h
  case none.none.none.none =>
    subst h
    exact ⟨.unrestricted (presentField_eq_none_iff.1 hlow) (presentField_eq_none_iff.1 hhigh)
      (presentField_eq_none_iff.1 hvalues) (Fields.missing_of_string? hexpr), fun _ _ => nofun⟩
  case none.none.none.some text =>
    cases isArray with
    | true => cases h
    | false =>
      cases h
      exact ⟨.expression (Fields.get?_of_string? hexpr) (presentField_eq_none_iff.1 hlow)
        (presentField_eq_none_iff.1 hhigh) (presentField_eq_none_iff.1 hvalues), nofun⟩
  case none.none.some.none v =>
    cases v with
    | arr items =>
      obtain ⟨values, hread, rfl⟩ := Except.map_eq_ok.1 h
      simp only [Except.mapM_eq_ok, numericOf_eq_ok] at hread
      exact ⟨.specific (get?_of_presentField hvalues) hread (presentField_eq_none_iff.1 hlow)
        (presentField_eq_none_iff.1 hhigh) (Fields.missing_of_string? hexpr), fun _ _ => nofun⟩
    | _ => cases h
  case some.some.none.none l u =>
    simp only [Except.bind_eq_ok, numericOf_eq_ok] at h
    obtain ⟨low, hl, high, hu, h⟩ := h
    cases h
    exact ⟨.bounds (get?_of_presentField hlow) (get?_of_presentField hhigh) hl hu (presentField_eq_none_iff.1 hvalues)
      (Fields.missing_of_string? hexpr), fun _ _ => nofun⟩

/-- What is described is read. -/
theorem ofFields_of_describes (h : Describes d dom) (harray : isArray = true → ∀ text, dom ≠ .expression text) :
    ofFields isArray d = .ok dom := by
  cases h with
  | unrestricted hlow hhigh hvalues hexpr =>
    simp [ofFields, presentField_eq_none_iff.2, hlow, hhigh, hvalues, Fields.string?_of_missing hexpr]
  | bounds hl hu hlow hhigh hvalues hexpr =>
    have hl' := presentField_of_ofJson? hl hlow
    have hu' := presentField_of_ofJson? hu hhigh
    simp [ofFields, presentField_eq_none_iff.2, hl', hu', hvalues, Fields.string?_of_missing hexpr,
      numericOf_eq_ok.2 hlow, numericOf_eq_ok.2 hhigh]
  | @specific items values hitems hvalues hlow hhigh hexpr =>
    have hitems' := presentField_of_get? hitems nofun
    have hread : items.mapM (numericOf "specific_domain") = .ok values := by
      simpa only [Except.mapM_eq_ok, numericOf_eq_ok] using hvalues
    simp [ofFields, presentField_eq_none_iff.2, hitems', hlow, hhigh, Fields.string?_of_missing hexpr, hread,
      Except.map]
  | @expression text htext hlow hhigh hvalues =>
    cases isArray with
    | true => exact absurd rfl (harray rfl text)
    | false =>
      simp [ofFields, presentField_eq_none_iff.2, hlow, hhigh, hvalues, Fields.string?_of_get? htext]

/-- **The reader accepts an object iff it describes a domain**, which for an array is no expression. -/
theorem ofFields_eq_ok : ofFields isArray d = .ok dom ↔
    Describes d dom ∧ (isArray = true → ∀ text, dom ≠ .expression text) :=
  ⟨describes_of_ofFields, fun ⟨h, harray⟩ => ofFields_of_describes h harray⟩

/-- Each number of a domain is read from a value, which a text can hold if it can hold the document. -/
theorem Describes.exists_of_mem_numbers (h : Describes d dom) {n : Numeric} (hn : n ∈ dom.numbers) :
    ∃ v : Json, Numeric.ofJson? v = some n ∧ ((Json.obj d).WellFormed → v.WellFormed) := by
  cases h with
  | unrestricted => cases hn
  | expression => cases hn
  | specific hitems hvalues =>
    obtain ⟨v, hv, hread⟩ := exists_of_forall₂ hvalues n hn
    exact ⟨v, hread, fun hd => (hd.get? hitems).items hv⟩
  | @bounds l u _ _ hl hu hlow hhigh =>
    simp only [numbers, List.mem_cons, List.not_mem_nil, or_false] at hn
    rcases hn with rfl | rfl
    · exact ⟨l, hlow, fun hd => hd.get? hl⟩
    · exact ⟨u, hhigh, fun hd => hd.get? hu⟩

end Reading

/-- The keys that a domain stands under. -/
def keys : List String := ["domlow", "domup", "specific_domain", "expr"]

/-- What a reader finds of a domain that was written. A double that is not finite is written as null, which is read as
absent: one bound is then missing, or none is left, and a list with a null in it is refused. -/
def kept : Domain → Except ModelError Domain
  | bounds low high =>
    match low.isFinite, high.isFinite with
    | true, true => .ok (bounds low high)
    | true, false => .error (.malformed "domup" .missingUpperBound)
    | false, true => .error (.malformed "domlow" .missingLowerBound)
    | false, false => .ok unrestricted
  | specific values =>
    if values.all Numeric.isFinite then .ok (specific values)
    else .error (.malformed "specific_domain" (.expected .number))
  | dom => .ok dom

/-- A domain with finite numbers is kept. -/
theorem kept_of_isFinite {dom : Domain} (h : ∀ n ∈ dom.numbers, n.isFinite = true) : dom.kept = .ok dom := by
  cases dom with
  | unrestricted => rfl
  | expression text => rfl
  | specific values =>
    have hall : values.all Numeric.isFinite = true := List.all_eq_true.2 h
    rw [kept, if_pos hall]
  | bounds low high => simp [kept, h low (by simp [numbers]), h high (by simp [numbers])]

section Written

variable {d : Fields} {key : String}

/-- A number that was written is there iff it is finite. -/
theorem presentField_of_toJson {n : Numeric} (h : d.get? key = some n.toJson) :
    presentField d key = if n.isFinite then some n.toJson else none := by
  cases hf : n.isFinite with
  | true => exact presentField_of_get? h (Numeric.toJson_ne_null hf)
  | false => simp [presentField, h, Numeric.toJson_of_not_isFinite hf, Option.filter, Json.isNull]

theorem numericOf_toJson {n : Numeric} (field : String) (hw : n.InWords) : numericOf field n.toJson =
    if n.isFinite then .ok n else .error (.malformed field (.expected .number)) := by
  cases hf : n.isFinite with
  | true => simp [numericOf, Numeric.ofJson?_toJson hw hf]
  | false => simp [numericOf, Numeric.toJson_of_not_isFinite hf, Numeric.ofJson?]

/-- A list of numbers that was written is read back iff all of them are finite. -/
theorem mapM_numericOf_toJson (field : String) {values : List Numeric} (hw : ∀ n ∈ values, n.InWords) :
    (values.map Numeric.toJson).mapM (numericOf field) =
      if values.all Numeric.isFinite then .ok values else .error (.malformed field (.expected .number)) := by
  induction values with
  | nil => rfl
  | cons n values ih =>
    have ih := ih fun m hm => hw m (List.mem_cons_of_mem _ hm)
    rw [List.map_cons, List.mapM_cons, numericOf_toJson field (hw n List.mem_cons_self), ih, List.all_cons]
    cases n.isFinite with
    | false => rfl
    | true => cases values.all Numeric.isFinite <;> rfl

/-- **What is read from fields** that hold just those of a domain under the keys of domains. -/
theorem ofFields_eq_kept {isArray : Bool} {dom : Domain}
    (hkeys : ∀ key ∈ keys, d.get? key = OrderedMap.get? dom.toFields key)
    (hwords : ∀ n ∈ dom.numbers, n.InWords) (harray : isArray = true → ∀ text, dom ≠ .expression text) :
    ofFields isArray d = dom.kept := by
  have hlow := hkeys "domlow" (by simp [keys])
  have hup := hkeys "domup" (by simp [keys])
  have hspecific := hkeys "specific_domain" (by simp [keys])
  have hexpr := hkeys "expr" (by simp [keys])
  cases dom with
  | unrestricted =>
    simp only [toFields, OrderedMap.get?_nil] at hlow hup hspecific hexpr
    simp [ofFields, Fields.string?_of_get?_none hexpr, presentField_of_get?_none, hlow, hup, hspecific, kept]
  | expression text =>
    simp [toFields] at hlow hup hspecific hexpr
    cases isArray with
    | true => exact absurd rfl (harray rfl text)
    | false =>
      simp [ofFields, Fields.string?_of_get? hexpr, presentField_of_get?_none, hlow, hup, hspecific, kept]
  | specific values =>
    simp [toFields] at hlow hup hspecific hexpr
    have hwords : ∀ n ∈ values, n.InWords := hwords
    have hread := mapM_numericOf_toJson "specific_domain" hwords
    have hthere := presentField_of_get? hspecific (fun h => by cases h)
    simp only [ofFields, Fields.string?_of_get?_none hexpr, presentField_of_get?_none hlow, presentField_of_get?_none hup,
      hthere, hread, kept, Except.ok_bind]
    cases values.all Numeric.isFinite <;> rfl
  | bounds low high =>
    simp [toFields] at hlow hup hspecific hexpr
    have hl := presentField_of_toJson hlow
    have hu := presentField_of_toJson hup
    have hlread := numericOf_toJson "domlow" (hwords low (by simp [numbers]))
    have huread := numericOf_toJson "domup" (hwords high (by simp [numbers]))
    cases hlf : low.isFinite <;> cases huf : high.isFinite <;>
      simp [ofFields, Fields.string?_of_get?_none hexpr, presentField_of_get?_none hspecific, hl, hu, hlread, huread, hlf,
        huf, kept]

end Written

/-- A domain stands under its own keys only. -/
theorem get?_toFields_eq_none (dom : Domain) {key : String} (h : key ∉ keys) :
    OrderedMap.get? dom.toFields key = none := by
  simp only [keys, List.mem_cons, List.not_mem_nil, or_false, not_or] at h
  cases dom <;> simp [toFields, h]

/-- A text can hold the fields of a domain. -/
theorem wellFormed_toFields {dom : Domain} (h : ∀ n ∈ dom.numbers, n.InWords) :
    (Json.obj dom.toFields).WellFormed := by
  cases dom with
  | unrestricted => simp [toFields]
  | expression text => simp [toFields]
  | specific values =>
    simp only [toFields, Json.WellFormed.obj_cons, Json.WellFormed.obj_nil, and_true]
    refine .arr fun w hw => ?_
    obtain ⟨n, hn, rfl⟩ := List.mem_map.1 hw
    exact Numeric.wellFormed_toJson (h n hn)
  | bounds low high =>
    simp [toFields, Numeric.wellFormed_toJson (h low (by simp [numbers])),
      Numeric.wellFormed_toJson (h high (by simp [numbers]))]

end Domain

end SolverClient
