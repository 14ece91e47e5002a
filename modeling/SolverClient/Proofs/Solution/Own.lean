import Mathlib.Data.List.Pairwise
import Mathlib.Data.List.Perm.Basic
import Mathlib.Data.Nat.Basic
import Mathlib.Order.MinMax
import SolverClient.Solution.Record

/-!
# What the records of one name say

The records of one name give a value (`Record.valueOf?`): a scalar has the cell of the last record, and cells at
positions make a sequence up to the greatest position (`Record.extent`), each with the cell of the last record of its
position (`Record.cellAt`). Merging one more record into that value gives the value of all records, if they are uniform
(`Record.exists_merge`), and fails if they are not (`Record.uniform_of_merge`). The order of records of different
positions does not matter (`Record.valueOf?_of_perm`).
-/

namespace SolverClient

/-- Setting a cell makes the sequence as long as it takes and changes no other cell. -/
theorem Solution.setCell_eq (cells : List Cell) (position : Nat) (cell : Cell) :
    setCell cells position cell = (List.range (max cells.length (position + 1))).map fun i =>
      if i = position then cell else (cells[i]?).join := by
  unfold setCell
  split
  · refine List.ext_getElem (by simp; omega) fun i hi _ => ?_
    rw [List.length_set] at hi
    rw [List.getElem_map, List.getElem_range, List.getElem_set, List.getElem?_eq_getElem hi]
    by_cases h : position = i
    · simp [h]
    · simp [h, Ne.symm h]
  · rename_i hge
    rw [List.append_assoc]
    refine List.ext_getElem (by simp; omega) fun i hi _ => ?_
    simp only [List.length_append, List.length_replicate, List.length_singleton] at hi
    rw [List.getElem_map, List.getElem_range, List.getElem_append]
    split
    · rename_i h
      rw [if_neg (by omega), List.getElem?_eq_getElem h, Option.join_some]
    · rename_i h
      rw [List.getElem_append, List.getElem?_eq_none (by omega), Option.join_none]
      split
      · rename_i hlt
        rw [List.length_replicate] at hlt
        rw [List.getElem_replicate, if_neg (by omega)]
      · rename_i hlast
        rw [List.length_replicate] at hlast
        rw [List.getElem_singleton, if_pos (by omega)]

namespace Record

/-- One more than the greatest position. -/
def extent (own : List Record) : Nat := (own.filterMap position).foldr (fun p n => max (p + 1) n) 0

/-- The cell of the last record of a position. -/
def cellAt (own : List Record) (p : Nat) : Cell := (own.reverse.find? fun r => r.position == some p).bind cell

/-- The cells up to the greatest position. -/
def cells (own : List Record) : List Cell := (List.range (extent own)).map (cellAt own)

/-- The value that the records of one name give, if there are any. -/
def valueOf? (own : List Record) : Option SolvedValue :=
  own.getLast?.map fun last => if last.position.isSome then .sequence (cells own) else .scalar last.cell

/-- Either all records have a position or none has. -/
def Uniform (own : List Record) : Prop := ∀ r ∈ own, ∀ r' ∈ own, r.position.isSome = r'.position.isSome

section Own

variable {own own' : List Record} {r : Record} {p i : Nat}

theorem lt_extent : i < extent own ↔ ∃ r ∈ own, ∃ p, r.position = some p ∧ i ≤ p := by
  unfold extent
  induction own with
  | nil => simp
  | cons r own ih =>
    cases hp : r.position with
    | none => simp [hp, ih]
    | some p =>
      simp only [List.filterMap_cons, hp, List.foldr_cons, lt_max_iff, ih, List.mem_cons, exists_eq_or_imp,
        Option.some.injEq, exists_eq_left', Nat.lt_succ_iff]

theorem extent_append (hp : r.position = some p) : extent (own ++ [r]) = max (extent own) (p + 1) := by
  refine eq_of_forall_lt_iff fun i => ?_
  simp only [lt_max_iff, lt_extent, List.mem_append, List.mem_singleton, or_and_right, exists_or, exists_eq_left, hp,
    Option.some.injEq, exists_eq_left', Nat.lt_succ_iff]

theorem cellAt_append : cellAt (own ++ [r]) p = if r.position = some p then r.cell else cellAt own p := by
  simp only [cellAt, List.reverse_append, List.reverse_singleton, List.singleton_append, List.find?_cons]
  by_cases h : r.position = some p
  · simp [h]
  · simp [h, beq_false_of_ne h]

/-- A cell is open or that of a record. -/
theorem cellAt_cases (own : List Record) (p : Nat) :
    (cellAt own p = none ∧ ∀ r ∈ own, r.position ≠ some p) ∨
      ∃ r ∈ own, r.position = some p ∧ cellAt own p = r.cell := by
  unfold cellAt
  cases h : own.reverse.find? fun r => r.position == some p with
  | none =>
    refine Or.inl ⟨rfl, fun r hr hp => ?_⟩
    have := List.find?_eq_none.1 h r (List.mem_reverse.2 hr)
    simp [hp] at this
  | some r =>
    have hp := List.find?_some h
    exact Or.inr ⟨r, List.mem_reverse.1 (List.mem_of_find?_eq_some h), by simpa using hp, rfl⟩

/-- Past the greatest position all cells are open. -/
theorem join_getElem?_cells : ((cells own)[i]?).join = cellAt own i := by
  by_cases h : i < extent own
  · simp [cells, h]
  · have hnone : cellAt own i = none := by
      rcases cellAt_cases own i with ⟨hnone, -⟩ | ⟨r, hr, hp, -⟩
      · exact hnone
      · exact absurd (lt_extent.2 ⟨r, hr, i, hp, Nat.le_refl i⟩) h
    simp [cells, h, hnone]

theorem setCell_cells (hp : r.position = some p) : Solution.setCell (cells own) p r.cell = cells (own ++ [r]) := by
  have hlength : (cells own).length = extent own := by rw [cells, List.length_map, List.length_range]
  rw [Solution.setCell_eq, hlength, ← extent_append hp]
  refine List.map_congr_left fun i _ => ?_
  rw [cellAt_append, join_getElem?_cells, hp]
  simp [eq_comm]

/-! ## One more record -/

/-- Uniform records are none at all, or all of a scalar, or all of cells. -/
theorem Uniform.cases (h : Uniform own) :
    (own = [] ∧ valueOf? own = none) ∨
    (own ≠ [] ∧ (∀ r ∈ own, r.position = none) ∧ ∃ r ∈ own, valueOf? own = some (.scalar r.cell)) ∨
    (own ≠ [] ∧ (∀ r ∈ own, r.position.isSome = true) ∧ valueOf? own = some (.sequence (cells own))) := by
  cases hl : own.getLast? with
  | none => exact Or.inl ⟨List.getLast?_eq_none_iff.1 hl, by rw [valueOf?, hl]; rfl⟩
  | some last =>
    have hlast : last ∈ own := List.mem_of_getLast? hl
    have hne : own ≠ [] := List.ne_nil_of_mem hlast
    cases hp : last.position with
    | none =>
      refine Or.inr (Or.inl ⟨hne, fun r hr => ?_, last, hlast, by simp [valueOf?, hl, hp]⟩)
      have := h r hr last hlast
      simpa [hp] using this
    | some p =>
      refine Or.inr (Or.inr ⟨hne, fun r hr => ?_, by simp [valueOf?, hl, hp]⟩)
      have := h r hr last hlast
      simpa [hp] using this

/-- One more record goes with uniform ones if it is of their kind. -/
theorem uniform_append_iff : Uniform (own ++ [r]) ↔
    Uniform own ∧ ∀ s ∈ own, s.position.isSome = r.position.isSome := by
  constructor
  · intro h
    refine ⟨fun s hs t ht => h s (List.mem_append_left _ hs) t (List.mem_append_left _ ht), fun s hs => ?_⟩
    exact h s (List.mem_append_left _ hs) r (by simp)
  · rintro ⟨hu, hr⟩ s hs t ht
    rcases List.mem_append.1 hs with hs | hs <;> rcases List.mem_append.1 ht with ht | ht
    · exact hu s hs t ht
    · rw [List.mem_singleton.1 ht, hr s hs]
    · rw [List.mem_singleton.1 hs, hr t ht]
    · rw [List.mem_singleton.1 hs, List.mem_singleton.1 ht]

theorem Uniform.left (h : Uniform (own ++ [r])) : Uniform own := (uniform_append_iff.1 h).1

theorem valueOf?_append (hp : r.position = none) : valueOf? (own ++ [r]) = some (.scalar r.cell) := by
  simp [valueOf?, hp]

theorem valueOf?_append_some (hp : r.position = some p) :
    valueOf? (own ++ [r]) = some (.sequence (Solution.setCell (cells own) p r.cell)) := by
  simp [valueOf?, hp, setCell_cells hp]

/-- **A record that goes with the earlier ones is merged** into the value of all. -/
theorem exists_merge (h : Uniform (own ++ [r])) :
    ∃ x, Solution.merge (valueOf? own) r = .ok x ∧ valueOf? (own ++ [r]) = some x := by
  cases hp : r.position with
  | none =>
    refine ⟨_, ?_, valueOf?_append hp⟩
    rcases h.left.cases with ⟨-, hv⟩ | ⟨-, -, s, -, hv⟩ | ⟨hne, hall, -⟩
    · simp [Solution.merge, hv, hp]
    · simp [Solution.merge, hv, hp]
    · obtain ⟨s, hs⟩ := List.exists_mem_of_ne_nil own hne
      have := (uniform_append_iff.1 h).2 s hs
      rw [hall s hs, hp] at this
      cases this
  | some p =>
    refine ⟨_, ?_, valueOf?_append_some hp⟩
    rcases h.left.cases with ⟨rfl, hv⟩ | ⟨hne, hall, -⟩ | ⟨-, -, hv⟩
    · simp only [Solution.merge, hv, hp]
      rfl
    · obtain ⟨s, hs⟩ := List.exists_mem_of_ne_nil own hne
      have := (uniform_append_iff.1 h).2 s hs
      rw [hall s hs, hp] at this
      cases this
    · simp [Solution.merge, hv, hp]

/-- **A record that is merged goes with the earlier ones.** -/
theorem uniform_of_merge {x : SolvedValue} (hu : Uniform own) (h : Solution.merge (valueOf? own) r = .ok x) :
    Uniform (own ++ [r]) := by
  refine uniform_append_iff.2 ⟨hu, ?_⟩
  rcases hu.cases with ⟨rfl, -⟩ | ⟨-, hall, t, -, hv⟩ | ⟨-, hall, hv⟩
  · intro s hs; cases hs
  · cases hp : r.position with
    | none => intro s hs; rw [hall s hs]
    | some p => simp [Solution.merge, hv, hp] at h
  · cases hp : r.position with
    | none => simp [Solution.merge, hv, hp] at h
    | some p => intro s hs; rw [hall s hs]; rfl

/-- A record that is refused makes a conflict over its name. -/
theorem merge_eq_error {earlier : Option SolvedValue} {e : SolutionError} (h : Solution.merge earlier r = .error e) :
    e = .shapeConflict r.name := by
  unfold Solution.merge at h
  split at h <;> cases h <;> rfl

/-! ## Another order of records -/

/-- No two records have the same position. -/
def Apart (own : List Record) : Prop := own.Pairwise fun r s => r.position ≠ s.position

theorem Uniform.perm (h : Uniform own) (hp : own.Perm own') : Uniform own' :=
  fun r hr s hs => h r (hp.mem_iff.2 hr) s (hp.mem_iff.2 hs)

theorem extent_of_perm (hp : own.Perm own') : extent own = extent own' := by
  refine eq_of_forall_lt_iff fun i => ?_
  simp only [lt_extent, hp.mem_iff]

/-- The only record of a position gives its cell. -/
theorem Apart.eq_of_position (h : Apart own) {r s : Record} (hr : r ∈ own) (hs : s ∈ own)
    (hpos : r.position = s.position) : r = s := by
  have hsymm : Std.Symm fun r s : Record => r.position ≠ s.position := ⟨fun _ _ hne heq => hne heq.symm⟩
  by_contra hne
  exact List.Pairwise.forall h hr hs hne hpos

theorem cellAt_of_perm (h : Apart own) (hp : own.Perm own') (p : Nat) : cellAt own p = cellAt own' p := by
  rcases cellAt_cases own p with ⟨hc, hnone⟩ | ⟨r, hr, hrp, hc⟩
  · rcases cellAt_cases own' p with ⟨hc', -⟩ | ⟨s, hs, hsp, -⟩
    · rw [hc, hc']
    · exact absurd hsp (hnone s (hp.mem_iff.2 hs))
  · rcases cellAt_cases own' p with ⟨-, hnone⟩ | ⟨s, hs, hsp, hc'⟩
    · exact absurd hrp (hnone r (hp.mem_iff.1 hr))
    · rw [hc, hc', h.eq_of_position hr (hp.mem_iff.2 hs) (hrp.trans hsp.symm)]

/-- **The order of records of different positions does not matter.** -/
theorem valueOf?_of_perm (hu : Uniform own) (h : Apart own) (hp : own.Perm own') : valueOf? own = valueOf? own' := by
  rcases hu.cases with ⟨rfl, hv⟩ | ⟨hne, hall, r, hr, hv⟩ | ⟨hne, hall, hv⟩
  · rw [List.nil_perm.1 hp]
  · rcases (hu.perm hp).cases with ⟨rfl, -⟩ | ⟨-, -, s, hs, hv'⟩ | ⟨hne', hall', -⟩
    · exact absurd (List.perm_nil.1 hp) hne
    · have hs := hp.mem_iff.2 hs
      rw [hv, hv', h.eq_of_position hr hs ((hall r hr).trans (hall s hs).symm)]
    · have := hall' r (hp.mem_iff.1 hr)
      rw [hall r hr] at this
      cases this
  · rcases (hu.perm hp).cases with ⟨rfl, -⟩ | ⟨-, hall', s, hs, -⟩ | ⟨-, -, hv'⟩
    · exact absurd (List.perm_nil.1 hp) hne
    · have := hall s (hp.mem_iff.2 hs)
      rw [hall' s hs] at this
      cases this
    · rw [hv, hv', cells, cells, extent_of_perm hp]
      simp only [List.map_congr_left fun p _ => cellAt_of_perm h hp p]

end Own

end Record

end SolverClient
