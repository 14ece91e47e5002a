import Mathlib.Data.List.Nodup
import Mathlib.Data.List.Perm.Basic
import SolverClient.OrderedMap

/-!
# Maps by their entries

The value of a name is that of its first entry (`OrderedMap.get?_cons`, `OrderedMap.get?_append`). Where no name has two
entries, a map is the same as its look-up function up to the order of the entries (`OrderedMap.mem_iff_get?`,
`OrderedMap.perm_of_get?`, `OrderedMap.get?_of_perm`).
-/

namespace SolverClient.OrderedMap

variable {α : Type}

@[simp]
theorem get?_nil (key : String) : get? ([] : OrderedMap α) key = none := rfl

/-- The first entry of a key counts. -/
@[simp]
theorem get?_cons (k key : String) (v : α) (m : OrderedMap α) :
    get? ((k, v) :: m) key = if key = k then some v else get? m key := by
  by_cases h : key = k
  · simp [get?, h]
  · simp [get?, List.lookup_cons, h, beq_false_of_ne]

/-- Later entries count only where earlier ones leave a key out. -/
@[simp]
theorem get?_append (m m' : OrderedMap α) (key : String) : get? (m ++ m') key = (get? m key).or (get? m' key) := by
  induction m with
  | nil => rfl
  | cons entry m ih =>
    obtain ⟨k, v⟩ := entry
    simp only [List.cons_append, get?_cons, ih]
    by_cases h : key = k <;> simp [h]

/-- Taking keys out leaves the values of the others. -/
theorem get?_filter (p : String → Bool) (m : OrderedMap α) (key : String) :
    get? (m.filter fun e => p e.1) key = if p key then m.get? key else none := by
  induction m with
  | nil => simp
  | cons entry m ih =>
    obtain ⟨k, v⟩ := entry
    simp only [List.filter_cons, get?_cons]
    by_cases hk : key = k
    · subst hk
      cases hp : p key <;> simp [hp, ih]
    · cases hp : p k <;> simp [hk, ih]

/-- Each value may be replaced by another one that depends on its key too. -/
theorem get?_map {β : Type} (f : String → α → β) (m : OrderedMap α) (key : String) :
    get? (m.map fun e => (e.1, f e.1 e.2)) key = (m.get? key).map (f key) := by
  induction m with
  | nil => rfl
  | cons entry m ih =>
    obtain ⟨k, v⟩ := entry
    rw [List.map_cons, get?_cons, get?_cons, ih]
    by_cases hk : key = k
    · simp [hk]
    · simp [hk]

variable {m m' : OrderedMap α} {key : String} {v : α}

/-- A value that is found under a key stands in the map. -/
theorem mem_of_get? (h : m.get? key = some v) : (key, v) ∈ m := by
  induction m with
  | nil => cases h
  | cons entry m ih =>
    obtain ⟨k, w⟩ := entry
    rw [get?_cons] at h
    split at h
    · rename_i hk
      cases h
      rw [hk]
      exact List.mem_cons_self
    · exact List.mem_cons_of_mem _ (ih h)

theorem mem_keys_of_mem (h : (key, v) ∈ m) : key ∈ m.keys := List.mem_map_of_mem (f := Prod.fst) h

/-- A key has a value iff it has an entry. -/
theorem contains_iff : m.contains key = true ↔ key ∈ m.keys := by
  induction m with
  | nil => simp [contains, keys]
  | cons entry m ih =>
    obtain ⟨k, w⟩ := entry
    simp only [contains, keys, get?_cons, List.map_cons, List.mem_cons] at ih ⊢
    by_cases h : key = k
    · simp [h]
    · simp only [h, if_false, false_or]
      exact ih

/-- A new key at the end leaves no key with two entries. -/
theorem nodup_keys_append_singleton : (keys (m ++ [(key, v)])).Nodup ↔ m.keys.Nodup ∧ key ∉ m.keys := by
  rw [keys, List.map_append, List.nodup_append_comm, List.map_singleton, List.singleton_append, List.nodup_cons]
  exact And.comm

section Nodup

variable (hn : m.keys.Nodup)
include hn

/-- Where no key has two entries, an entry is the value of its key. -/
theorem get?_of_mem (h : (key, v) ∈ m) : m.get? key = some v := by
  induction m with
  | nil => cases h
  | cons entry m ih =>
    obtain ⟨k, w⟩ := entry
    simp only [keys, List.map_cons, List.nodup_cons] at hn
    rw [get?_cons]
    rcases List.mem_cons.1 h with h | h
    · cases h
      rw [if_pos rfl]
    · have hne : key ≠ k := fun hk => hn.1 (hk ▸ mem_keys_of_mem h)
      rw [if_neg hne]
      exact ih hn.2 h

theorem mem_iff_get? : (key, v) ∈ m ↔ m.get? key = some v := ⟨get?_of_mem hn, mem_of_get?⟩

/-- The order of the entries does not matter. -/
theorem get?_of_perm (hp : m.Perm m') (key : String) : m.get? key = m'.get? key := by
  have hn' : m'.keys.Nodup := (hp.map Prod.fst).nodup_iff.1 hn
  refine Option.ext fun v => ?_
  rw [← mem_iff_get? hn, ← mem_iff_get? hn', hp.mem_iff]

/-- Maps with the same values differ in the order of their entries only. -/
theorem perm_of_get? (hn' : m'.keys.Nodup) (h : ∀ key, m.get? key = m'.get? key) : m.Perm m' := by
  refine (List.perm_ext_iff_of_nodup (List.Nodup.of_map Prod.fst hn) (List.Nodup.of_map Prod.fst hn')).2 ?_
  rintro ⟨key, v⟩
  rw [mem_iff_get? hn, mem_iff_get? hn', h key]

end Nodup

end SolverClient.OrderedMap
