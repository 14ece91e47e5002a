import Mathlib.Data.List.Forall2
import SolverClient.Json.Field
import SolverClient.Proofs.OrderedMap

/-!
# Readers that succeed

What a chain of readers has read when it succeeds, and what a document must hold for a reader to succeed.

* A chain succeeds iff each of its steps does (`Except.bind_eq_ok`); a list of values is read item by item
  (`Except.mapM_eq_ok`), and a list that was written item by item is read back (`Except.mapM_map`).
* A required field is read iff its value is there and accepted (`Fields.required_eq_ok`); an optional one may also be
  absent or null (`Fields.Missing`, `Fields.optional_eq_ok`). For texts, integers and counts this says what stands under
  the key (`Fields.string_eq_ok` and the lemmas after it).
-/

namespace SolverClient

/-! ## Chains of readers -/

section Chains

variable {ε α β : Type}

/-- A chain succeeds iff its first step does and so does the rest with its outcome. -/
theorem Except.bind_eq_ok {x : Except ε α} {f : α → Except ε β} {b : β} :
    (x >>= f) = .ok b ↔ ∃ a, x = .ok a ∧ f a = .ok b := by
  cases x with
  | error e =>
    constructor
    · intro h; cases h
    · rintro ⟨_, h, _⟩; cases h
  | ok a =>
    constructor
    · intro h; exact ⟨a, rfl, h⟩
    · rintro ⟨_, h, h'⟩; cases h; exact h'

theorem Except.pure_eq_ok {a b : α} : (pure a : Except ε α) = .ok b ↔ a = b := by
  constructor
  · intro h; cases h; rfl
  · intro h; cases h; rfl

theorem Except.map_eq_ok {x : Except ε α} {f : α → β} {b : β} : x.map f = .ok b ↔ ∃ a, x = .ok a ∧ f a = b := by
  cases x with
  | error e => simp [Except.map]
  | ok a => simp [Except.map]

/-- A value that is read and then checked is accepted iff it is read and passes. -/
theorem Except.check_eq_ok {x : Except ε α} {p : α → Bool} {refuse : α → ε} {a : α} :
    (do let a ← x; if p a then .ok a else .error (refuse a)) = .ok a ↔ x = .ok a ∧ p a = true := by
  rw [Except.bind_eq_ok]
  constructor
  · rintro ⟨b, hb, h⟩
    split at h
    · rename_i hp
      cases h
      exact ⟨hb, hp⟩
    · cases h
  · rintro ⟨ha, hp⟩
    exact ⟨a, ha, if_pos hp⟩

/-- A reader that accepts nothing refuses. -/
theorem Except.exists_error {x : Except ε α} (h : ∀ a, x ≠ .ok a) : ∃ e, x = .error e := by
  cases x with
  | error e => exact ⟨e, rfl⟩
  | ok a => exact absurd rfl (h a)

/-- A first step that succeeds leaves the rest of the chain. -/
@[simp]
theorem Except.ok_bind (a : α) (f : α → Except ε β) : (Except.ok a >>= f) = f a := rfl

/-- A first step that fails is the outcome of the chain. -/
@[simp]
theorem Except.error_bind (e : ε) (f : α → Except ε β) : (Except.error e >>= f) = .error e := rfl

/-- The outcome of a chain is all that is left of it. -/
@[simp]
theorem Except.pure_eq (a : α) : (pure a : Except ε α) = .ok a := rfl

/-- A list is read iff each of its items is. -/
theorem Except.mapM_eq_ok {f : α → Except ε β} : ∀ {l : List α} {r : List β},
    l.mapM f = .ok r ↔ List.Forall₂ (fun a b => f a = .ok b) l r
  | [], r => by
    rw [List.mapM_nil, Except.pure_eq_ok]
    constructor
    · rintro rfl; exact .nil
    · intro h; cases h; rfl
  | a :: l, r => by
    simp only [List.mapM_cons, Except.bind_eq_ok, Except.pure_eq_ok]
    constructor
    · rintro ⟨b, hb, bs, hbs, rfl⟩
      exact .cons hb (Except.mapM_eq_ok.1 hbs)
    · intro h
      cases h with
      | cons hb hbs => exact ⟨_, hb, _, Except.mapM_eq_ok.2 hbs, rfl⟩

/-- What is written item by item is read back if each item is. -/
theorem Except.mapM_map {f : α → Except ε β} {g : β → α} {l : List β} (h : ∀ b ∈ l, f (g b) = .ok b) :
    (l.map g).mapM f = .ok l := by
  rw [Except.mapM_eq_ok]
  induction l with
  | nil => exact .nil
  | cons b l ih =>
    exact .cons (h b List.mem_cons_self) (ih fun c hc => h c (List.mem_cons_of_mem _ hc))

/-- In lists that are related item by item, each item of the second one comes from an item of the first one. -/
theorem exists_of_forall₂ {R : α → β → Prop} {l : List α} {r : List β} (h : List.Forall₂ R l r) :
    ∀ b ∈ r, ∃ a ∈ l, R a b := by
  induction h with
  | nil => intro b hb; cases hb
  | cons hab _ ih =>
    intro b hb
    rcases List.mem_cons.1 hb with rfl | hb
    · exact ⟨_, List.mem_cons_self, hab⟩
    · obtain ⟨a, ha, hr⟩ := ih b hb
      exact ⟨a, List.mem_cons_of_mem _ ha, hr⟩

end Chains

/-! ## One field -/

/-- A natural number is a count if it is a word. -/
theorem Json.asCount?_natCast {n : Nat} (h : n < Word.bound64) : (Json.int n).asCount? = some n := by
  have hrange : 0 ≤ (n : Int) ∧ (n : Int) < Word.bound64 := ⟨Int.natCast_nonneg n, by exact_mod_cast h⟩
  rw [Json.asCount?, if_pos hrange, Int.toNat_natCast]

/-- A count is a natural number that is a word. -/
theorem Json.asCount?_eq_some_iff {v : Json} {n : Nat} : v.asCount? = some n ↔ v = .int n ∧ n < Word.bound64 := by
  constructor
  · intro h
    cases v with
    | int i =>
      rw [Json.asCount?] at h
      split at h
      · rename_i hrange
        obtain rfl := Option.some.inj h
        obtain ⟨hpos, hlt⟩ := hrange
        exact ⟨congrArg _ (Int.toNat_of_nonneg hpos).symm, by omega⟩
      · cases h
    | _ => cases h
  · rintro ⟨rfl, hn⟩
    exact Json.asCount?_natCast hn

theorem Json.asString?_eq_some_iff {v : Json} {s : String} : v.asString? = some s ↔ v = .str s := by
  cases v <;> simp [Json.asString?]

theorem Json.asBool?_eq_some_iff {v : Json} {b : Bool} : v.asBool? = some b ↔ v = .bool b := by
  cases v <;> simp [Json.asBool?]

theorem Json.asInt?_eq_some_iff {v : Json} {n : Int} : v.asInt? = some n ↔ v = .int n ∧ Word.isSigned n = true := by
  cases v with
  | int i =>
    simp only [Json.asInt?, Option.ite_none_right_eq_some, Option.some.injEq, Json.int.injEq]
    constructor
    · rintro ⟨hi, rfl⟩
      exact ⟨rfl, hi⟩
    · rintro ⟨rfl, hi⟩
      exact ⟨hi, rfl⟩
  | _ => simp [Json.asInt?]

namespace Fields

variable {α : Type} {what : Expectation} {read : Json → Option α} {d : Fields} {key : String}

/-- A required field is read iff it is there and its value is accepted. -/
theorem required_eq_ok {a : α} : required what read d key = .ok a ↔ ∃ v, d.get? key = some v ∧ read v = some a := by
  unfold required
  cases d.get? key with
  | none => simp
  | some v => cases hv : read v <;> simp [hv]

/-- The field is absent or null. -/
def Missing (d : Fields) (key : String) : Prop := d.get? key = none ∨ d.get? key = some .null

/-- An optional field is read as nothing where it is missing, and else as its value, which must be accepted. -/
theorem optional_eq_ok {o : Option α} : optional what read d key = .ok o ↔
    (o = none ∧ d.Missing key) ∨ ∃ v a, d.get? key = some v ∧ v ≠ .null ∧ read v = some a ∧ o = some a := by
  unfold optional Missing
  cases d.get? key with
  | none => simp [eq_comm]
  | some v =>
    by_cases hn : v = .null
    · subst hn
      simp [eq_comm]
    · cases hv : read v <;> simp [hn, hv, eq_comm]

theorem required_of_get? {v : Json} {a : α} (h : d.get? key = some v) (hv : read v = some a) :
    required what read d key = .ok a := required_eq_ok.2 ⟨v, h, hv⟩

theorem optional_of_get? {v : Json} {a : α} (h : d.get? key = some v) (hn : v ≠ .null) (hv : read v = some a) :
    optional what read d key = .ok (some a) := optional_eq_ok.2 (Or.inr ⟨v, a, h, hn, hv, rfl⟩)

theorem optional_of_get?_none (h : d.get? key = none) : optional what read d key = .ok none :=
  optional_eq_ok.2 (Or.inl ⟨rfl, Or.inl h⟩)

/-! ### Objects that agree on a key -/

theorem required_of_get?_eq {e : Fields} (h : e.get? key = d.get? key) :
    required what read e key = required what read d key := by
  unfold required
  rw [h]

theorem optional_of_get?_eq {e : Fields} (h : e.get? key = d.get? key) :
    optional what read e key = optional what read d key := by
  unfold optional
  rw [h]

/-! ### Fields that were written -/

theorem string_of_get? {s : String} (h : d.get? key = some (.str s)) : d.string key = .ok s :=
  required_of_get? h rfl

theorem string?_of_get? {s : String} (h : d.get? key = some (.str s)) : d.string? key = .ok (some s) :=
  optional_of_get? h (fun h => by cases h) rfl

theorem string?_of_get?_none (h : d.get? key = none) : d.string? key = .ok none := optional_of_get?_none h

/-- An optional text that was written as a text or null is read back. -/
theorem string?_of_ofString? {s : Option String} (h : d.get? key = some (Json.ofString? s)) :
    d.string? key = .ok s := by
  cases s with
  | none => exact optional_eq_ok.2 (Or.inl ⟨rfl, Or.inr h⟩)
  | some s => exact string?_of_get? h

theorem integer_of_get? {n : Int} (h : d.get? key = some (.int n)) (hn : Word.isSigned n = true) :
    d.integer key = .ok n := required_of_get? h (by simp [Json.asInt?, hn])

theorem integer?_of_get? {n : Int} (h : d.get? key = some (.int n)) (hn : Word.isSigned n = true) :
    d.integer? key = .ok (some n) := optional_of_get? h (fun h => by cases h) (by simp [Json.asInt?, hn])

theorem count_of_get? {n : Nat} (h : d.get? key = some (.int n)) (hn : n < Word.bound64) : d.count key = .ok n :=
  required_of_get? h (Json.asCount?_natCast hn)

theorem number_of_get? {x : Float} (h : d.get? key = some (.float x)) : d.number key = .ok x :=
  required_of_get? h rfl

theorem arrayOrEmpty_of_get? {items : List Json} (h : d.get? key = some (.arr items)) :
    d.arrayOrEmpty key = .ok items := by
  have hread : optional .array Json.asArray? d key = .ok (some items) := optional_of_get? h (fun h => by cases h) rfl
  simp [arrayOrEmpty, hread, Except.map]

/-! ### Fields that were read -/

/-- The field gives a value: it holds it, or it is missing and the value is the standard one. -/
def Gives (d : Fields) (key : String) (write : α → Json) (standard a : α) : Prop :=
  d.get? key = some (write a) ∨ d.Missing key ∧ a = standard

/-- **A text is read iff it stands under its key.** -/
theorem string_eq_ok {s : String} : d.string key = .ok s ↔ d.get? key = some (.str s) := by
  refine ⟨fun h => ?_, string_of_get?⟩
  obtain ⟨v, hget, hv⟩ := required_eq_ok.1 h
  obtain rfl := Json.asString?_eq_some_iff.1 hv
  exact hget

/-- An optional text is read as none iff it is missing. -/
theorem string?_eq_ok {o : Option String} :
    d.string? key = .ok o ↔ (o = none ∧ d.Missing key) ∨ ∃ s, d.get? key = some (.str s) ∧ o = some s := by
  refine optional_eq_ok.trans (or_congr Iff.rfl ⟨?_, ?_⟩)
  · rintro ⟨v, s, hget, -, hv, rfl⟩
    obtain rfl := Json.asString?_eq_some_iff.1 hv
    exact ⟨s, hget, rfl⟩
  · rintro ⟨s, hget, rfl⟩
    exact ⟨_, s, hget, nofun, rfl, rfl⟩

theorem string?_of_missing (h : d.Missing key) : d.string? key = .ok none := string?_eq_ok.2 (Or.inl ⟨rfl, h⟩)

theorem missing_of_string? (h : d.string? key = .ok none) : d.Missing key := by
  rcases string?_eq_ok.1 h with ⟨-, h⟩ | ⟨s, -, hs⟩
  · exact h
  · cases hs

theorem get?_of_string? {s : String} (h : d.string? key = .ok (some s)) : d.get? key = some (.str s) := by
  rcases string?_eq_ok.1 h with ⟨hs, -⟩ | ⟨s, hget, hs⟩
  · cases hs
  · cases hs
    exact hget

/-- An optional integer is read as none iff it is missing, and else it is a word with sign. -/
theorem integer?_eq_ok {o : Option Int} : d.integer? key = .ok o ↔
    (o = none ∧ d.Missing key) ∨ ∃ n, d.get? key = some (.int n) ∧ Word.isSigned n = true ∧ o = some n := by
  refine optional_eq_ok.trans (or_congr Iff.rfl ⟨?_, ?_⟩)
  · rintro ⟨v, n, hget, -, hv, rfl⟩
    obtain ⟨rfl, hn⟩ := Json.asInt?_eq_some_iff.1 hv
    exact ⟨n, hget, hn, rfl⟩
  · rintro ⟨n, hget, hn, rfl⟩
    exact ⟨_, n, hget, nofun, Json.asInt?_eq_some_iff.2 ⟨rfl, hn⟩, rfl⟩

/-- **A count is read iff it stands under its key** and is a word. -/
theorem count_eq_ok {n : Nat} : d.count key = .ok n ↔ d.get? key = some (.int n) ∧ n < Word.bound64 := by
  refine required_eq_ok.trans ⟨?_, fun ⟨hget, hn⟩ => ⟨_, hget, Json.asCount?_natCast hn⟩⟩
  rintro ⟨v, hget, hv⟩
  obtain ⟨rfl, hn⟩ := Json.asCount?_eq_some_iff.1 hv
  exact ⟨hget, hn⟩

/-- An integer field holds a word with sign. -/
theorem isSigned_of_integer {n : Int} (h : d.integer key = .ok n) : Word.isSigned n = true := by
  obtain ⟨v, -, hv⟩ := required_eq_ok.1 h
  exact (Json.asInt?_eq_some_iff.1 hv).2

/-- A count is a word without sign. -/
theorem lt_of_count {n : Nat} (h : d.count key = .ok n) : n < Word.bound64 := (count_eq_ok.1 h).2

end Fields

end SolverClient
