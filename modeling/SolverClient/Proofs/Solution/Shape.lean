import SolverClient.Proofs.Grid
import SolverClient.Proofs.Solution.Report

/-!
# Solutions have the shape of the model

The variables of a model are told apart in solutions if neither their names nor the names that solutions show are
shared and no plain array looks like a matrix (`Solution.Separate`). Reports of their cells are complete if each scalar,
each assigned cell and at least one cell of every variable is among them (`Solution.Complete`), in any order. Such
reports make a solution with one entry for each variable, in the shape of the variable (`Solution.ofRecords_shape`): the
records of a variable's name are those of its cells (`Solution.mem_own_recordsOf`), each array and each matrix shows
them (`Solution.exists_shows`), and no two variables end up under one name (`Solution.keys_reshape_perm`).
-/

namespace SolverClient

/-- The name under which solutions show a variable: the base of a matrix, and else the name itself. -/
def Variable.displayName (v : Variable) : String :=
  if v.layout.isMatrix then ((MatrixName.ofText? v.name).map MatrixName.base).getD v.name else v.name

namespace Record

/-- The cell that a value goes with, as a null leaves it open. -/
theorem cellOf_isSome {d : Fields} {cell : Cell} (hnull : cell ≠ some .null)
    (hvalue : ∀ x, cell = some x → d.get? "value" = some x) : cellOf cell.isSome d = cell := by
  cases cell with
  | none => rfl
  | some x =>
    have hx : x.isNull = false := by
      cases x with
      | null => exact absurd rfl hnull
      | _ => rfl
    simp [cellOf, hvalue x rfl, Option.filter, hx]

end Record

/-- A cell of a variable, by its index among the cells laid out row by row. -/
structure Slot where
  owner : Variable
  index : Nat

namespace Slot

/-- The value reports the cell of the slot: a position goes with all but scalars, and a value need only go with an
assigned cell. -/
def Reported (slot : Slot) (cell : Cell) (v : Json) : Prop :=
  ∃ d : Fields, v = .obj d ∧ d.get? "name" = some (.str slot.owner.name) ∧
    d.get? "assigned" = some (.bool cell.isSome) ∧ (∀ x, cell = some x → d.get? "value" = some x) ∧
    d.get? "position" = if slot.owner.layout.isScalar then none else some (.int slot.index)

/-- The record of a cell. -/
def record (slot : Slot) (cell : Cell) : Record :=
  ⟨slot.owner.name, cell, if slot.owner.layout.isScalar then none else some slot.index⟩

/-- A report is read as the record of the cell. -/
theorem ofJson_of_reported {slot : Slot} {cell : Cell} {v : Json} (h : slot.Reported cell v) (hnull : cell ≠ some .null)
    (hindex : slot.index ≤ maxPosition) : Record.ofJson v = .ok (slot.record cell) := by
  obtain ⟨d, rfl, hname, hassigned, hvalue, hposition⟩ := h
  have hcell := Record.cellOf_isSome hnull hvalue
  have hpos : Record.positionOf d = .ok (slot.record cell).position := by
    rw [record]
    split at hposition
    · rename_i hl
      rw [if_pos hl, Record.positionOf_of_get?_none hposition]
    · rename_i hl
      have hcount := Json.asCount?_natCast (Record.lt_bound64_of_le_maxPosition hindex)
      rw [if_neg hl, (Record.positionOf_eq_ok hposition).2 ⟨_, hcount, hindex, rfl⟩]
  simp [Record.ofJson, Json.asFields?, hname, hassigned, Json.asString?, Json.asBool?, hcell, hpos, record]

end Slot

namespace Solution

open Record

/-- The variables are declared, small enough for positions, and told apart by their names and by those that solutions
show; no plain array has the name of a matrix. -/
structure Separate (vars : List Variable) : Prop where
  declared : ∀ v ∈ vars, ∃ d : Declaration, d.build = .ok v
  small : ∀ v ∈ vars, v.size ≤ maxPosition + 1
  names : (vars.map Variable.name).Nodup
  displayNames : (vars.map Variable.displayName).Nodup
  plain : ∀ v ∈ vars, v.layout.isScalar = false → v.layout.isMatrix = false → MatrixName.ofText? v.name = none

/-- The slots are cells of the variables, none comes twice, and among them are all scalars, all assigned cells and at
least one cell of each variable. -/
structure Complete (vars : List Variable) (value : Slot → Cell) (slots : List Slot) : Prop where
  valid : ∀ slot ∈ slots, slot.owner ∈ vars ∧ slot.index < slot.owner.size
  nodup : slots.Nodup
  scalar : ∀ v ∈ vars, v.layout.isScalar = true → ⟨v, 0⟩ ∈ slots
  reported : ∀ v ∈ vars, ∃ i, ⟨v, i⟩ ∈ slots
  assigned : ∀ v ∈ vars, ∀ i < v.size, value ⟨v, i⟩ ≠ none → ⟨v, i⟩ ∈ slots

/-- The value has the shape of the variable and the values of its cells. An array ends after the greatest index among
the slots, and no cell after that is assigned. -/
def Shows (value : Slot → Cell) (slots : List Slot) (v : Variable) (x : SolvedValue) : Prop :=
  match v.layout with
  | .scalar => x = .scalar (value ⟨v, 0⟩)
  | .array length _ => ∃ n ≤ length, (∀ i, i < n ↔ ∃ j, ⟨v, j⟩ ∈ slots ∧ i ≤ j) ∧
      (∀ i, n ≤ i → i < length → value ⟨v, i⟩ = none) ∧ x = .sequence ((List.range n).map fun i => value ⟨v, i⟩)
  | .matrix rows cols _ =>
    x = .matrix ((List.range rows).map fun r => (List.range cols).map fun c => value ⟨v, r * cols + c⟩)

section Shape

variable {vars : List Variable} {value : Slot → Cell} {slots : List Slot} {records : List Json} {v : Variable}

/-- The records of reported slots. -/
def recordsOf (value : Slot → Cell) (slots : List Slot) : List Record := slots.map fun slot => slot.record (value slot)

theorem parsed_of_reported (hr : List.Forall₂ (fun slot v => slot.Reported (value slot) v) slots records)
    (hnull : ∀ slot ∈ slots, value slot ≠ some .null) (hindex : ∀ slot ∈ slots, slot.index ≤ maxPosition) :
    Parsed records (recordsOf value slots) := by
  induction hr with
  | nil => exact .nil
  | cons h _ ih =>
    refine .cons (Slot.ofJson_of_reported h (hnull _ List.mem_cons_self) (hindex _ List.mem_cons_self)) (ih ?_ ?_)
    · exact fun slot hslot => hnull slot (List.mem_cons_of_mem _ hslot)
    · exact fun slot hslot => hindex slot (List.mem_cons_of_mem _ hslot)

/-- Only one variable has the name. -/
theorem Separate.eq_of_name (hv : Separate vars) {w : Variable} (hvv : v ∈ vars) (hw : w ∈ vars) (h : w.name = v.name) :
    w = v := List.inj_on_of_nodup_map hv.names hw hvv h

/-- The name of a matrix is read as its shape. -/
theorem Separate.ofText?_eq {rows cols : Nat} {t : VariableStrategy} (hv : Separate vars) (hvv : v ∈ vars)
    (hl : v.layout = .matrix rows cols t) : ∃ base, MatrixName.ofText? v.name = some ⟨rows, cols, base⟩ := by
  obtain ⟨d, hd⟩ := hv.declared v hvv
  have hmax : maxPosition + 1 < Word.bound64 := by decide
  have hgrid := Declaration.grid_lt_of_build hd (Nat.lt_of_le_of_lt (hv.small v hvv) hmax)
  rw [hl] at hgrid
  exact Declaration.ofText?_of_build hd hl hgrid.1 hgrid.2

variable (hv : Separate vars) (hs : Complete vars value slots)
include hv hs

/-- The records of a variable's name are those of its slots. -/
theorem mem_own_recordsOf (hvv : v ∈ vars) {r : Record} : r ∈ own (recordsOf value slots) v.name ↔
    ∃ i, ⟨v, i⟩ ∈ slots ∧ r = Slot.record ⟨v, i⟩ (value ⟨v, i⟩) := by
  rw [mem_own, recordsOf, List.mem_map]
  constructor
  · rintro ⟨⟨⟨w, i⟩, hslot, rfl⟩, hname⟩
    obtain rfl := hv.eq_of_name hvv (hs.valid _ hslot).1 hname
    exact ⟨i, hslot, rfl⟩
  · rintro ⟨i, hslot, rfl⟩
    exact ⟨⟨_, hslot, rfl⟩, rfl⟩

theorem consistent_recordsOf : Consistent (recordsOf value slots) := by
  refine consistent_of_places hv.names fun r hr => ?_
  obtain ⟨slot, hslot, rfl⟩ := List.mem_map.1 hr
  obtain ⟨howner, hindex⟩ := hs.valid slot hslot
  exact List.mem_flatMap.2 ⟨slot.owner, howner, Variable.mem_places.2 ⟨slot.index, hindex, rfl⟩⟩

/-- The value of a scalar is that of its only cell. -/
theorem valueOf?_scalar (hvv : v ∈ vars) (hl : v.layout = .scalar) :
    valueOf? (own (recordsOf value slots) v.name) = some (.scalar (value ⟨v, 0⟩)) := by
  have hmem := fun r => mem_own_recordsOf hv hs hvv (r := r)
  have hscalar : v.layout.isScalar = true := by rw [hl]; rfl
  rcases (consistent_recordsOf hv hs v.name).cases with ⟨hnil, -⟩ | ⟨-, -, r, hr, hvalue⟩ | ⟨-, hall, -⟩
  · have hr := (hmem _).2 ⟨0, hs.scalar v hvv hscalar, rfl⟩
    rw [hnil] at hr
    cases hr
  · obtain ⟨i, hslot, rfl⟩ := (hmem r).1 hr
    have hi := (hs.valid _ hslot).2
    simp only [Variable.size, hl, Layout.size, Layout.grid] at hi
    obtain rfl : i = 0 := by omega
    exact hvalue
  · have hr := hall _ ((hmem _).2 ⟨0, hs.scalar v hvv hscalar, rfl⟩)
    simp [Slot.record, hscalar] at hr

/-- A cell that no record assigns is not assigned. -/
theorem cellAt_recordsOf (hvv : v ∈ vars) (hl : v.layout.isScalar = false) {i : Nat} (hi : i < v.size) :
    cellAt (own (recordsOf value slots) v.name) i = value ⟨v, i⟩ := by
  rcases cellAt_cases (own (recordsOf value slots) v.name) i with ⟨hc, hnone⟩ | ⟨r, hr, hp, hc⟩
  · rw [hc]
    by_contra hne
    have hslot := hs.assigned v hvv i hi (Ne.symm hne)
    refine hnone _ ((mem_own_recordsOf hv hs hvv).2 ⟨i, hslot, rfl⟩) ?_
    simp [Slot.record, hl]
  · obtain ⟨j, -, rfl⟩ := (mem_own_recordsOf hv hs hvv).1 hr
    simp [Slot.record, hl] at hp
    rw [hc, hp]
    rfl

/-- The value of an array or a matrix is the sequence of its cells up to the last one that was reported. -/
theorem valueOf?_cells (hvv : v ∈ vars) (hl : v.layout.isScalar = false) :
    valueOf? (own (recordsOf value slots) v.name) = some (.sequence (cells (own (recordsOf value slots) v.name))) := by
  obtain ⟨i, hslot⟩ := hs.reported v hvv
  have hr := (mem_own_recordsOf hv hs hvv).2 ⟨i, hslot, rfl⟩
  rcases (consistent_recordsOf hv hs v.name).cases with ⟨hnil, -⟩ | ⟨-, hall, -⟩ | ⟨-, -, hvalue⟩
  · rw [hnil] at hr
    cases hr
  · have hnone := hall _ hr
    simp [Slot.record, hl] at hnone
  · exact hvalue

theorem lt_extent_recordsOf (hvv : v ∈ vars) (hl : v.layout.isScalar = false) {i : Nat} :
    i < extent (own (recordsOf value slots) v.name) ↔ ∃ j, ⟨v, j⟩ ∈ slots ∧ i ≤ j := by
  rw [lt_extent]
  constructor
  · rintro ⟨r, hr, p, hp, hip⟩
    obtain ⟨j, hslot, rfl⟩ := (mem_own_recordsOf hv hs hvv).1 hr
    simp [Slot.record, hl] at hp
    exact ⟨j, hslot, hp ▸ hip⟩
  · rintro ⟨j, hslot, hij⟩
    exact ⟨_, (mem_own_recordsOf hv hs hvv).2 ⟨j, hslot, rfl⟩, j, by simp [Slot.record, hl], hij⟩

/-- An array ends where the reports of its cells end. -/
theorem shows_array {length : Nat} {t : VariableStrategy} (hvv : v ∈ vars) (hl : v.layout = .array length t) :
    Shows value slots v (.sequence (cells (own (recordsOf value slots) v.name))) := by
  have hscalar : v.layout.isScalar = false := by rw [hl]; rfl
  have hsize : v.size = length := by simp [Variable.size, hl, Layout.size, Layout.grid]
  have hlt := fun i => lt_extent_recordsOf hv hs hvv hscalar (i := i)
  have hextent : extent (own (recordsOf value slots) v.name) ≤ length := by
    by_contra hgt
    obtain ⟨j, hslot, hle⟩ := (hlt length).1 (Nat.lt_of_not_le hgt)
    have hj : j < v.size := (hs.valid _ hslot).2
    omega
  simp only [Shows, hl]
  refine ⟨_, hextent, hlt, fun i hi hil => ?_, ?_⟩
  · by_contra hne
    have hslot := hs.assigned v hvv i (by omega) hne
    have := (hlt i).2 ⟨i, hslot, Nat.le_refl i⟩
    omega
  · rw [cells]
    refine congrArg _ (List.map_congr_left fun i hi => ?_)
    have hi := List.mem_range.1 hi
    exact cellAt_recordsOf hv hs hvv hscalar (by omega)

/-- A matrix has all its rows, however few of its cells are reported. -/
theorem shows_matrix {rows cols : Nat} {t : VariableStrategy} (hvv : v ∈ vars) (hl : v.layout = .matrix rows cols t) :
    Shows value slots v (.matrix (unflatten (cells (own (recordsOf value slots) v.name)) rows cols)) := by
  have hscalar : v.layout.isScalar = false := by rw [hl]; rfl
  have hsize : v.size = rows * cols := by simp [Variable.size, hl, Layout.size, Layout.grid]
  simp only [Shows, hl, unflatten]
  refine congrArg _ (List.map_congr_left fun r hr => List.map_congr_left fun c hc => ?_)
  have hr := List.mem_range.1 hr
  have hc := List.mem_range.1 hc
  have hindex : r * cols + c < v.size := hsize.symm ▸ Grid.index_lt hr hc
  rw [List.getElem?_toArray, join_getElem?_cells, cellAt_recordsOf hv hs hvv hscalar hindex]

/-- **Each variable is shown** in its shape, under its display name, once its entry is cut into rows. -/
theorem exists_shows (hvv : v ∈ vars) : ∃ x, valueOf? (own (recordsOf value slots) v.name) = some x ∧
    (reshape (v.name, x)).1 = v.displayName ∧ Shows value slots v (reshape (v.name, x)).2 := by
  cases hl : v.layout with
  | scalar =>
    refine ⟨_, valueOf?_scalar hv hs hvv hl, ?_, ?_⟩
    · simp [reshape, Variable.displayName, hl, Layout.isMatrix]
    · simp [Shows, hl, reshape]
  | array length t =>
    have hscalar : v.layout.isScalar = false := by rw [hl]; rfl
    have hplain := hv.plain v hvv hscalar (by rw [hl]; rfl)
    refine ⟨_, valueOf?_cells hv hs hvv hscalar, ?_, ?_⟩
    · simp [reshape, hplain, Variable.displayName, hl, Layout.isMatrix]
    · rw [reshape, hplain]
      exact shows_array hv hs hvv hl
  | matrix rows cols t =>
    have hscalar : v.layout.isScalar = false := by rw [hl]; rfl
    obtain ⟨base, hname⟩ := hv.ofText?_eq hvv hl
    refine ⟨_, valueOf?_cells hv hs hvv hscalar, ?_, ?_⟩
    · simp [reshape, hname, Variable.displayName, hl, Layout.isMatrix]
    · rw [reshape, hname]
      exact shows_matrix hv hs hvv hl

/-- **Each variable has one entry.** -/
theorem keys_perm {entries : OrderedMap SolvedValue} (hg : Gathered (recordsOf value slots) entries) :
    entries.keys.Perm (vars.map Variable.name) := by
  refine hg.keys_perm hv.names fun name => ?_
  rw [List.mem_map]
  constructor
  · rintro ⟨v, hvv, rfl⟩
    obtain ⟨i, hslot⟩ := hs.reported v hvv
    exact ⟨_, List.mem_map_of_mem hslot, rfl⟩
  · rintro ⟨r, hr, rfl⟩
    obtain ⟨slot, hslot, rfl⟩ := List.mem_map.1 hr
    exact ⟨_, (hs.valid _ hslot).1, rfl⟩

/-- Each entry is that of a variable, in its shape and under its display name once it is cut into rows. -/
theorem exists_shows_of_mem {entries : OrderedMap SolvedValue} (hg : Gathered (recordsOf value slots) entries)
    (hvv : v ∈ vars) : ∃ x, (v.name, x) ∈ entries ∧ (reshape (v.name, x)).1 = v.displayName ∧
      Shows value slots v (reshape (v.name, x)).2 := by
  obtain ⟨x, hx, hname, hshows⟩ := exists_shows hv hs hvv
  exact ⟨x, OrderedMap.mem_of_get? ((hg.get? v.name).trans hx), hname, hshows⟩

/-- The entries, cut into rows, have the display names of the variables. -/
theorem keys_reshape_perm {entries : OrderedMap SolvedValue} (hg : Gathered (recordsOf value slots) entries) :
    (OrderedMap.keys (entries.map reshape)).Perm (vars.map Variable.displayName) := by
  refine keys_reshape_perm_of hg.nodup (keys_perm hv hs hg) fun v hvv => ?_
  obtain ⟨x, hx, hname, -⟩ := exists_shows hv hs hvv
  exact ⟨x, (hg.get? v.name).trans hx, hname⟩

end Shape

/-- **Solutions have the shape of the model.** Reports of the cells make a solution, whatever their order. It has one
entry for each variable, under its display name, with the values of the cells in the shape of the variable. -/
theorem ofRecords_shape {vars : List Variable} {value : Slot → Cell} {slots : List Slot} {records : List Json}
    (hv : Separate vars) (hs : Complete vars value slots)
    (hvalue : ∀ v ∈ vars, ∀ i < v.size, value ⟨v, i⟩ ≠ some .null)
    (hr : List.Forall₂ (fun slot v => slot.Reported (value slot) v) slots records) :
    ∃ s, ofRecords records = .ok s ∧ s.names.Perm (vars.map Variable.displayName) ∧
      ∀ v ∈ vars, ∃ x, s.get? v.displayName = some x ∧ Shows value slots v x := by
  have hnull : ∀ slot ∈ slots, value slot ≠ some .null := by
    intro slot hslot
    obtain ⟨hvv, hi⟩ := hs.valid slot hslot
    exact hvalue slot.owner hvv slot.index hi
  have hindex : ∀ slot ∈ slots, slot.index ≤ maxPosition := by
    intro slot hslot
    obtain ⟨hvv, hi⟩ := hs.valid slot hslot
    exact Nat.le_of_lt_succ (Nat.lt_of_lt_of_le hi (hv.small slot.owner hvv))
  obtain ⟨entries, hg, hok⟩ := ofRecords_of_consistent (parsed_of_reported hr hnull hindex) (consistent_recordsOf hv hs)
  have hkeys := keys_reshape_perm hv hs hg
  have hnodup : (OrderedMap.keys (entries.map reshape)).Nodup := hkeys.nodup_iff.2 hv.displayNames
  refine ⟨_, hok hnodup, hkeys, fun v hvv => ?_⟩
  obtain ⟨x, hx, hname, hshows⟩ := exists_shows_of_mem hv hs hg hvv
  have hmem := List.mem_map_of_mem (f := reshape) hx
  refine ⟨_, OrderedMap.get?_of_mem hnodup ?_, hshows⟩
  rw [← hname]
  exact hmem

def shapeScalar : Variable := ⟨"x", .integer, .scalar, .unrestricted, .standard, Variable.noOrder⟩

def shapeArray : Variable := ⟨"a", .boolean, .array 5 .standard, .unrestricted, .standard, Variable.noOrder⟩

def shapeMatrix : Variable :=
  ⟨"MATRIX$2$3$board", .integer, .matrix 2 3 .standard, .unrestricted, .standard, Variable.noOrder⟩

/-- One variable of each layout. -/
def shapeVars : List Variable := [shapeScalar, shapeArray, shapeMatrix]

/-- The scalar, two cells of the array and one of the matrix are assigned. -/
def shapeValue (slot : Slot) : Cell :=
  match slot.owner.layout, slot.index with
  | .scalar, _ => some (.int 3)
  | .array .., 0 => some (.bool true)
  | .array .., 2 => some (.bool false)
  | .matrix .., 4 => some (.int 7)
  | _, _ => none

/-- The cells that are reported, in no order; one of them is not assigned. -/
def shapeSlots : List Slot := [⟨shapeMatrix, 4⟩, ⟨shapeArray, 2⟩, ⟨shapeScalar, 0⟩, ⟨shapeArray, 0⟩, ⟨shapeMatrix, 1⟩]

def shapeRecords : List Json :=
  [.obj [("name", .str "MATRIX$2$3$board"), ("assigned", .bool true), ("position", .int 4), ("value", .int 7)],
    .obj [("name", .str "a"), ("assigned", .bool true), ("position", .int 2), ("value", .bool false)],
    .obj [("name", .str "x"), ("assigned", .bool true), ("value", .int 3)],
    .obj [("name", .str "a"), ("assigned", .bool true), ("position", .int 0), ("value", .bool true)],
    .obj [("name", .str "MATRIX$2$3$board"), ("assigned", .bool false), ("position", .int 1), ("value", .int 9)]]

theorem forall_shapeVars {p : Variable → Prop} :
    (∀ v ∈ shapeVars, p v) ↔ p shapeScalar ∧ p shapeArray ∧ p shapeMatrix := by simp [shapeVars]

theorem separate_shapeVars : Separate shapeVars where
  declared := forall_shapeVars.2
    ⟨⟨.scalar .integer "x", by rfl⟩, ⟨.array .boolean "a" 5, by rfl⟩, ⟨.matrix .integer "board" 2 3, by rfl⟩⟩
  small := by decide
  names := by decide
  displayNames := by decide
  plain := by decide

theorem complete_shapeSlots : Complete shapeVars shapeValue shapeSlots where
  valid := by
    intro slot hslot
    simp only [shapeSlots, List.mem_cons, List.not_mem_nil, or_false] at hslot
    rcases hslot with rfl | rfl | rfl | rfl | rfl <;> exact ⟨by simp [shapeVars], by decide⟩
  nodup := by simp [shapeSlots, shapeScalar, shapeArray, shapeMatrix]
  scalar := by
    refine forall_shapeVars.2 ⟨fun _ => ?_, fun hl => ?_, fun hl => ?_⟩
    · simp [shapeSlots]
    · cases hl
    · cases hl
  reported := by
    refine forall_shapeVars.2 ⟨⟨0, ?_⟩, ⟨0, ?_⟩, ⟨4, ?_⟩⟩ <;> simp [shapeSlots]
  assigned := by
    refine forall_shapeVars.2 ⟨fun i hi _ => ?_, fun i _ hne => ?_, fun i _ hne => ?_⟩
    · obtain rfl : i = 0 := Nat.lt_one_iff.1 hi
      simp [shapeSlots]
    · match i with
      | 0 | 2 => simp [shapeSlots]
      | 1 | _ + 3 => exact absurd rfl hne
    · match i with
      | 4 => simp [shapeSlots]
      | 0 | 1 | 2 | 3 | _ + 5 => exact absurd rfl hne

theorem reported_shapeRecords :
    List.Forall₂ (fun slot v => slot.Reported (shapeValue slot) v) shapeSlots shapeRecords := by
  refine .cons ⟨_, rfl, rfl, rfl, fun x hx => ?_, rfl⟩ (.cons ⟨_, rfl, rfl, rfl, fun x hx => ?_, rfl⟩
    (.cons ⟨_, rfl, rfl, rfl, fun x hx => ?_, rfl⟩ (.cons ⟨_, rfl, rfl, rfl, fun x hx => ?_, rfl⟩
      (.cons ⟨_, rfl, rfl, rfl, fun x hx => ?_, rfl⟩ .nil))))
  · cases hx; rfl
  · cases hx; rfl
  · cases hx; rfl
  · cases hx; rfl
  · cases hx

theorem ofRecords_shape_shapeRecords :
    ∃ s, ofRecords shapeRecords = .ok s ∧ s.names.Perm (shapeVars.map Variable.displayName) ∧
      ∀ v ∈ shapeVars, ∃ x, s.get? v.displayName = some x ∧ Shows shapeValue shapeSlots v x := by
  refine ofRecords_shape separate_shapeVars complete_shapeSlots (fun v hv i hi => ?_) reported_shapeRecords
  simp only [shapeValue]
  split <;> simp

end Solution

end SolverClient
