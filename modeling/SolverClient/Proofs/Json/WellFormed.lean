import SolverClient.Proofs.Decimal.Finite
import SolverClient.Proofs.Field

/-!
# Values that a text can hold

A `Json` value has more integers and doubles than a JSON text: `Json.WellFormed` says that its integers are words of 64
bits, with or without sign, and its doubles finite. All that is read from a text is well-formed. The numbers of a
well-formed document are read as numbers that can be written again (`Numeric.isFinite_of_ofJson?`,
`Fields.isFinite_of_number`), and a number that can be written is read back (`Numeric.ofJson?_toJson`).
-/

namespace SolverClient

/-- Integers are words of 64 bits, with or without sign, and doubles are finite. -/
inductive Json.WellFormed : Json → Prop
  | null : WellFormed .null
  | bool (b : Bool) : WellFormed (.bool b)
  | int {n : Int} (low : -(Word.signedBound : Int) ≤ n) (high : n < Word.bound64) : WellFormed (.int n)
  | float {x : Float} (h : x.isFinite = true) : WellFormed (.float x)
  | str (s : String) : WellFormed (.str s)
  | arr {items : List Json} (h : ∀ v ∈ items, WellFormed v) : WellFormed (.arr items)
  | obj {d : Fields} (h : ∀ e ∈ d, WellFormed e.2) : WellFormed (.obj d)

namespace Json.WellFormed

attribute [simp] null bool str

@[simp]
theorem obj_nil : (Json.obj []).WellFormed := .obj fun _ h => by cases h

@[simp]
theorem obj_cons {key : String} {v : Json} {d : Fields} :
    (Json.obj ((key, v) :: d)).WellFormed ↔ v.WellFormed ∧ (Json.obj d).WellFormed := by
  constructor
  · rintro (_ | _ | _ | _ | _ | _ | h)
    exact ⟨h _ List.mem_cons_self, .obj fun e he => h e (List.mem_cons_of_mem _ he)⟩
  · rintro ⟨hv, hd⟩
    cases hd with
    | obj h =>
      refine .obj fun e he => ?_
      rcases List.mem_cons.1 he with rfl | he
      · exact hv
      · exact h e he

@[simp]
theorem obj_append {d d' : Fields} :
    (Json.obj (d ++ d')).WellFormed ↔ (Json.obj d).WellFormed ∧ (Json.obj d').WellFormed := by
  induction d with
  | nil => simp
  | cons e d ih =>
    rw [List.cons_append, obj_cons, obj_cons, ih, and_assoc]

theorem arr_iff {items : List Json} : (Json.arr items).WellFormed ↔ ∀ v ∈ items, v.WellFormed := by
  constructor
  · rintro (_ | _ | _ | _ | _ | h)
    exact h
  · exact .arr

theorem items {items : List Json} (h : (Json.arr items).WellFormed) {v : Json} (hv : v ∈ items) : v.WellFormed := by
  cases h with
  | arr h => exact h v hv

theorem get? {d : Fields} {key : String} {v : Json} (h : (Json.obj d).WellFormed) (hv : d.get? key = some v) :
    v.WellFormed := by
  cases h with
  | obj h => exact h _ (OrderedMap.mem_of_get? hv)

/-- A word with sign. -/
theorem int_of_isSigned {n : Int} (h : Word.isSigned n = true) : (Json.int n).WellFormed := by
  simp only [Word.isSigned, Bool.and_eq_true, decide_eq_true_eq] at h
  exact .int h.1 (Int.lt_trans h.2 (by decide))

/-- A word without sign. -/
theorem int_of_lt {n : Nat} (h : n < Word.bound64) : (Json.int n).WellFormed :=
  .int (Int.le_trans (by decide) (Int.natCast_nonneg n)) (by exact_mod_cast h)

theorem ofString? (s : Option String) : (Json.ofString? s).WellFormed := by
  cases s with
  | none => exact .null
  | some s => exact .str s

/-- The double that a number of a text is read as is finite. -/
theorem isFinite_of_asFloat? {v : Json} {x : Float} (h : v.WellFormed) (hx : v.asFloat? = some x) :
    x.isFinite = true := by
  cases h with
  | int low high =>
    cases hx
    refine Decimal.isFinite_ofInt ?_
    simp only [Word.signedBound, Word.bound64] at low high ⊢
    omega
  | float h => cases hx; exact h
  | _ => cases hx

end Json.WellFormed

/-! ## Numbers -/

namespace Numeric

/-- An integer is a word with sign. -/
def InWords : Numeric → Prop
  | int n => Word.isSigned n = true
  | float _ => True

/-- A finite number is read back from what is written for it. -/
theorem ofJson?_toJson {n : Numeric} (hw : n.InWords) (hf : n.isFinite = true) : ofJson? n.toJson = some n := by
  cases n with
  | int n =>
    simp only [InWords] at hw
    simp [toJson, ofJson?, hw]
  | float x =>
    simp only [isFinite] at hf
    simp [toJson, ofJson?, hf]

/-- A finite number is not written as null. -/
theorem toJson_ne_null {n : Numeric} (hf : n.isFinite = true) : n.toJson ≠ .null := by
  cases n with
  | int n => exact fun h => by cases h
  | float x =>
    simp only [isFinite] at hf
    simp [toJson, hf]

theorem toJson_of_not_isFinite {n : Numeric} (h : n.isFinite = false) : n.toJson = .null := by
  cases n with
  | int n => cases h
  | float x =>
    simp only [isFinite] at h
    simp [toJson, h]

theorem inWords_of_ofJson? {v : Json} {n : Numeric} (h : ofJson? v = some n) : n.InWords := by
  cases v with
  | int m =>
    simp only [ofJson?, Option.some.injEq] at h
    split at h
    · rename_i hm
      cases h
      exact hm
    · cases h
      trivial
  | float x => cases h; trivial
  | _ => cases h

theorem isFinite_of_ofJson? {v : Json} {n : Numeric} (hv : v.WellFormed) (h : ofJson? v = some n) :
    n.isFinite = true := by
  cases v with
  | int m =>
    simp only [ofJson?, Option.some.injEq] at h
    split at h
    · cases h; rfl
    · cases h
      exact hv.isFinite_of_asFloat? rfl
  | float x =>
    cases h
    exact hv.isFinite_of_asFloat? rfl
  | _ => cases h

theorem wellFormed_toJson {n : Numeric} (hw : n.InWords) : n.toJson.WellFormed := by
  cases n with
  | int n => exact .int_of_isSigned hw
  | float x =>
    simp only [toJson]
    split
    · rename_i hx
      exact .float hx
    · exact .null

end Numeric

/-- A number of a text is read as a finite double. -/
theorem Fields.isFinite_of_number {d : Fields} {key : String} {x : Float} (hd : (Json.obj d).WellFormed)
    (h : d.number key = .ok x) : x.isFinite = true := by
  obtain ⟨v, hv, hx⟩ := required_eq_ok.1 h
  exact (hd.get? hv).isFinite_of_asFloat? hx

end SolverClient
