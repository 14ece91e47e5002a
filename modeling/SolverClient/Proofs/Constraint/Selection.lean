import SolverClient.Constraint.Document
import SolverClient.Proofs.Json.WellFormed

/-!
# Selections are read back

A selection is read from a document that has its word and its numbers (`Selection.ofFields_eq_ok`). It is read back from
any fields that hold just its own under the keys of selections (`Selection.ofFields_of_toFields`), if its numbers are
words, the ends of a slice also when they are counted from one. A selection that was read is such
(`Selection.inWords_of_ofFields`).
-/

namespace SolverClient.Selection

/-- The numbers of a selection, in the form in which a document holds them, are words. -/
def InWords : Selection → Prop
  | whole => True
  | row size index => size < Word.bound64 ∧ index < Word.bound64
  | column size index => size < Word.bound64 ∧ index < Word.bound64
  | slice size startRow startCol endRow endCol =>
    size < Word.bound64 ∧ startRow < Word.bound64 ∧ startCol < Word.bound64 ∧ endRow + 1 < Word.bound64 ∧
      endCol + 1 < Word.bound64

/-- The keys that a selection stands under. -/
def keys : List String :=
  ["selection", "size", "index", "offset_start_x", "offset_start_y", "offset_end_x", "offset_end_y"]

variable {d : Fields} {s : Selection}

theorem lastOf_eq_ok {key : String} {n : Nat} : lastOf d key = .ok n ↔ d.count key = .ok (n + 1) := by
  simp only [lastOf, Except.bind_eq_ok]
  constructor
  · rintro ⟨m, hm, h⟩
    cases m with
    | zero => cases h
    | succ m => cases h; exact hm
  · intro h
    exact ⟨n + 1, h, rfl⟩

/-- The fields hold the numbers of a selection. -/
def HeldBy (d : Fields) : Selection → Prop
  | whole => True
  | row size index => d.count "size" = .ok size ∧ d.count "index" = .ok index
  | column size index => d.count "size" = .ok size ∧ d.count "index" = .ok index
  | slice size startRow startCol endRow endCol =>
    d.count "size" = .ok size ∧ d.count "offset_start_x" = .ok startRow ∧ d.count "offset_start_y" = .ok startCol ∧
      d.count "offset_end_x" = .ok (endRow + 1) ∧ d.count "offset_end_y" = .ok (endCol + 1)

/-- **A selection is read under its word with its numbers**; without a word the whole array is meant. -/
theorem ofFields_eq_ok : ofFields d = .ok s ↔
    (∃ word, d.string? "selection" = .ok word ∧ word.getD "standard" = s.tag) ∧ HeldBy d s := by
  simp only [ofFields, Except.bind_eq_ok]
  constructor
  · rintro ⟨word, hword, h⟩
    split at h
    · rename_i hw
      cases h
      exact ⟨⟨word, hword, hw⟩, trivial⟩
    split at h
    · rename_i hw
      simp only [Except.bind_eq_ok, Except.pure_eq_ok] at h
      obtain ⟨size, hsize, index, hindex, rfl⟩ := h
      exact ⟨⟨word, hword, hw⟩, hsize, hindex⟩
    split at h
    · rename_i hw
      simp only [Except.bind_eq_ok, Except.pure_eq_ok] at h
      obtain ⟨size, hsize, index, hindex, rfl⟩ := h
      exact ⟨⟨word, hword, hw⟩, hsize, hindex⟩
    split at h
    · rename_i hw
      simp only [Except.bind_eq_ok, Except.pure_eq_ok, lastOf_eq_ok] at h
      obtain ⟨size, hsize, startRow, hsr, startCol, hsc, endRow, her, endCol, hec, rfl⟩ := h
      exact ⟨⟨word, hword, hw⟩, hsize, hsr, hsc, her, hec⟩
    · cases h
  · rintro ⟨⟨word, hword, htag⟩, hheld⟩
    refine ⟨word, hword, ?_⟩
    rw [htag]
    cases s with
    | whole => simp [tag]
    | row size index => simp [tag, hheld.1, hheld.2]
    | column size index => simp [tag, hheld.1, hheld.2]
    | slice size startRow startCol endRow endCol =>
      obtain ⟨hsize, hsr, hsc, her, hec⟩ := hheld
      simp [tag, hsize, hsr, hsc, lastOf_eq_ok.2 her, lastOf_eq_ok.2 hec]

/-- **A selection is read back** from fields that hold just its own under the keys of selections. -/
theorem ofFields_of_toFields (hkeys : ∀ key ∈ keys, d.get? key = OrderedMap.get? s.toFields key) (hw : s.InWords) :
    ofFields d = .ok s := by
  have hword : d.string? "selection" = .ok (some s.tag) :=
    Fields.string?_of_get? (by rw [hkeys "selection" (by simp [keys])]; simp [toFields])
  refine ofFields_eq_ok.2 ⟨⟨some s.tag, hword, rfl⟩, ?_⟩
  have hsize := hkeys "size" (by simp [keys])
  have hindex := hkeys "index" (by simp [keys])
  cases s with
  | whole => trivial
  | row size index =>
    simp only [toFields, OrderedMap.get?_cons] at hsize hindex
    exact ⟨Fields.count_of_get? hsize hw.1, Fields.count_of_get? hindex hw.2⟩
  | column size index =>
    simp only [toFields, OrderedMap.get?_cons] at hsize hindex
    exact ⟨Fields.count_of_get? hsize hw.1, Fields.count_of_get? hindex hw.2⟩
  | slice size startRow startCol endRow endCol =>
    obtain ⟨hws, hwsr, hwsc, hwer, hwec⟩ := hw
    have hsr := hkeys "offset_start_x" (by simp [keys])
    have hsc := hkeys "offset_start_y" (by simp [keys])
    have her := hkeys "offset_end_x" (by simp [keys])
    have hec := hkeys "offset_end_y" (by simp [keys])
    simp only [toFields, OrderedMap.get?_cons] at hsize hsr hsc her hec
    exact ⟨Fields.count_of_get? hsize hws, Fields.count_of_get? hsr hwsr, Fields.count_of_get? hsc hwsc,
      Fields.count_of_get? her hwer, Fields.count_of_get? hec hwec⟩

theorem inWords_of_ofFields (h : ofFields d = .ok s) : s.InWords := by
  obtain ⟨-, hheld⟩ := ofFields_eq_ok.1 h
  cases s with
  | whole => trivial
  | row size index => exact ⟨Fields.lt_of_count hheld.1, Fields.lt_of_count hheld.2⟩
  | column size index => exact ⟨Fields.lt_of_count hheld.1, Fields.lt_of_count hheld.2⟩
  | slice size startRow startCol endRow endCol =>
    obtain ⟨hsize, hsr, hsc, her, hec⟩ := hheld
    exact ⟨Fields.lt_of_count hsize, Fields.lt_of_count hsr, Fields.lt_of_count hsc, Fields.lt_of_count her,
      Fields.lt_of_count hec⟩

/-- The word of a document is that of the selection that is read. -/
theorem tag_eq_of_ofFields {word : Option String} (h : ofFields d = .ok s) (hword : d.string? "selection" = .ok word) :
    word.getD "standard" = s.tag := by
  obtain ⟨⟨word', hword', htag⟩, -⟩ := ofFields_eq_ok.1 h
  rw [hword] at hword'
  cases hword'
  exact htag

/-- A text can hold the fields of a selection. -/
theorem wellFormed_toFields (hw : s.InWords) : (Json.obj s.toFields).WellFormed := by
  cases s with
  | whole => simp [toFields]
  | row size index => simp [toFields, Json.WellFormed.int_of_lt hw.1, Json.WellFormed.int_of_lt hw.2]
  | column size index => simp [toFields, Json.WellFormed.int_of_lt hw.1, Json.WellFormed.int_of_lt hw.2]
  | slice size startRow startCol endRow endCol =>
    obtain ⟨hs, hsr, hsc, her, hec⟩ := hw
    have her : (Json.int ((endRow + 1 : Nat) : Int)).WellFormed := .int_of_lt her
    have hec : (Json.int ((endCol + 1 : Nat) : Int)).WellFormed := .int_of_lt hec
    simp only [toFields, Json.WellFormed.obj_cons, Json.WellFormed.obj_nil, and_true]
    exact ⟨.str _, .int_of_lt hs, .int_of_lt hsr, .int_of_lt hsc, her, hec⟩

end SolverClient.Selection
