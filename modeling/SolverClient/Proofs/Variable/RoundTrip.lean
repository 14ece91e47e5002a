import SolverClient.Proofs.Variable.Declaration

/-!
# How far variables are read back

A variable that was declared, or read before, is read back from its document iff all its doubles are finite
(`Variable.ofFields_toFields_iff`). A double that is not finite has no number in a document. What is read then follows from
what is kept of the domain (`Domain.kept`): two such bounds leave a variable without a restriction, and all else is
refused.
-/

namespace SolverClient

/-- **A domain is kept iff its numbers are finite.** -/
theorem Domain.kept_eq_ok_self_iff {dom : Domain} :
    dom.kept = .ok dom ↔ ∀ n ∈ dom.numbers, n.isFinite = true := by
  refine ⟨fun h => ?_, kept_of_isFinite⟩
  cases dom with
  | unrestricted => intro n hn; cases hn
  | expression text => intro n hn; cases hn
  | specific values =>
    rw [kept] at h
    split at h
    · rename_i hall
      exact List.all_eq_true.1 hall
    · cases h
  | bounds low high =>
    cases hl : low.isFinite <;> cases hh : high.isFinite <;> simp [kept, hl, hh] at h
    intro n hn
    rcases List.mem_pair.1 hn with rfl | rfl
    · exact hl
    · exact hh

namespace Variable

variable {v : Variable}

/-- The variable was declared, or read from a document that a text can hold. Its integers are words. -/
def Stored (v : Variable) : Prop :=
  v.Declared ∨ v.size < Word.bound64 ∧ ∃ d : Fields, (Json.obj d).WellFormed ∧ ofFields d = .ok v

theorem Stored.coherent (h : v.Stored) : v.Coherent := by
  rcases h with h | ⟨-, d, -, h⟩
  · exact h.coherent
  · exact coherent_of_ofFields h

theorem Stored.inWords (h : v.Stored) : v.InWords := by
  rcases h with h | ⟨-, d, -, h⟩
  · exact h.inWords
  · exact inWords_of_ofFields h

theorem Stored.size_lt (h : v.Stored) : v.size < Word.bound64 := by
  rcases h with h | ⟨h, -⟩
  · exact h.1
  · exact h

/-- A variable with another domain is another variable. -/
theorem eq_self_iff_domain {dom : Domain} : ({ v with domain := dom } : Variable) = v ↔ dom = v.domain := by
  obtain ⟨name, kind, layout, domain, valueStrategy, order⟩ := v
  simp

/-- **A variable is read back iff its doubles are finite.** Else two bounds that are not finite are both lost, and leave
no restriction; a single one is missing, and a list of values with such a double is refused. Whatever was read before is
read back. -/
theorem ofFields_toFields_iff (h : v.Stored) :
    (Json.obj v.toFields).WellFormed ∧
    (ofFields v.toFields = .ok v ↔ v.IsFinite) ∧
    (∀ low high, v.domain = .bounds low high →
      (low.isFinite = false → high.isFinite = false → ofFields v.toFields = .ok { v with domain := .unrestricted }) ∧
      (low.isFinite = false → high.isFinite = true →
        ofFields v.toFields = .error (.malformed "domlow" .missingLowerBound)) ∧
      (low.isFinite = true → high.isFinite = false →
        ofFields v.toFields = .error (.malformed "domup" .missingUpperBound))) ∧
    (∀ values, v.domain = .specific values → (∃ n ∈ values, n.isFinite = false) →
      ofFields v.toFields = .error (.malformed "specific_domain" (.expected .number))) ∧
    ∀ d : Fields, (Json.obj d).WellFormed → ofFields d = .ok v → v.IsFinite := by
  have hread := ofFields_eq_map_kept h.coherent h.inWords
  refine ⟨wellFormed_toFields h.inWords h.size_lt, ?_, fun low high hd => ?_, fun values hd hn => ?_, ?_⟩
  · rw [hread, Except.map_eq_ok]
    constructor
    · rintro ⟨dom, hdom, hv⟩
      rw [eq_self_iff_domain.1 hv] at hdom
      exact Domain.kept_eq_ok_self_iff.1 hdom
    · intro hfinite
      exact ⟨v.domain, Domain.kept_of_isFinite hfinite, rfl⟩
  · rw [hread, hd]
    refine ⟨fun hl hh => ?_, fun hl hh => ?_, fun hl hh => ?_⟩ <;> simp only [Domain.kept, hl, hh] <;> rfl
  · obtain ⟨n, hn, hf⟩ := hn
    have hall : values.all Numeric.isFinite = false := List.all_eq_false.2 ⟨n, hn, by simp [hf]⟩
    rw [hread, hd, Domain.kept, hall]
    rfl
  · intro d hd hv
    exact isFinite_of_ofFields hd hv

/-- A bound that no number exceeds. -/
def endlessBound : Numeric := .float (Float.ofBits (UInt64.ofNat Decimal.infinityBits))

/-- An array whose cells have a lower bound only. -/
def unboundedSample : Variable :=
  ⟨"load", .float, .array 3 .standard, .bounds (.int 0) endlessBound, .standard, noOrder⟩

theorem stored_unboundedSample : unboundedSample.Stored := by
  refine Or.inl ⟨by decide, (Declaration.array .float "load" 3).withBounds (.int 0) endlessBound, ⟨by decide, ?_⟩, rfl⟩
  intro n hn
  rcases List.mem_pair.1 hn with rfl | rfl
  · show Word.isSigned 0 = true
    decide
  · trivial

theorem ofFields_toFields_iff_unboundedSample :
    ofFields unboundedSample.toFields = .error (.malformed "domup" .missingUpperBound) ∧ ¬ unboundedSample.IsFinite := by
  obtain ⟨-, hiff, hbounds, -, -⟩ := ofFields_toFields_iff stored_unboundedSample
  have hmissing := (hbounds (.int 0) endlessBound rfl).2.2 rfl (by decide)
  refine ⟨hmissing, fun hfinite => ?_⟩
  rw [hiff.2 hfinite] at hmissing
  cases hmissing

end Variable

end SolverClient
