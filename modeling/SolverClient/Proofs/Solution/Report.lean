import SolverClient.Proofs.Solution.Gather
import SolverClient.Proofs.Variable.Declaration

/-!
# Full reports

A report is full if it has one record of each scalar and of each cell, in any order and whatever the values
(`FullReport`). The decoder goes by names alone: cells under a name that reads as that of a matrix become this matrix,
under its base (`Variable.decodedName`, `Variable.decodedLayout`). The records of a full report go together
(`Record.consistent_of_places`), so a conflict is about two variables that are decoded under one name
(`Solution.two_le_count_of_fullReport`), and if there are no such variables then each one has an entry in its decoded
layout (`Solution.hasLayout_of_fullReport`, `Solution.exists_ofRecords_of_fullReport`).
-/

namespace SolverClient

/-! ## Names and layouts in solutions -/

namespace Variable

/-- The matrix that solutions take the cells of the variable for. -/
def decodedMatrix? (v : Variable) : Option MatrixName :=
  if v.layout.isScalar then none else MatrixName.ofText? v.name

/-- The name under which solutions have the variable. -/
def decodedName (v : Variable) : String := (v.decodedMatrix?.map MatrixName.base).getD v.name

/-- The layout in which solutions have the variable. -/
def decodedLayout (v : Variable) : Layout :=
  match v.decodedMatrix?, v.layout.strategy? with
  | some m, some s => .matrix m.rows m.cols s
  | _, _ => v.layout

/-- The layout in which the solver reports the variable; a matrix is an array there. -/
def wireLayout (v : Variable) : Layout := if v.layout.isScalar then .scalar else .array v.size .standard

/-- What the solver has to report: a scalar by its name and each cell by the name and its index. -/
def places (v : Variable) : List (String × Option Nat) :=
  (List.range v.size).map fun i => (v.name, if v.layout.isScalar then none else some i)

variable {v : Variable}

/-- A variable that is taken for no matrix is shown as it is. -/
theorem decoded_of_none (h : v.decodedMatrix? = none) : v.decodedName = v.name ∧ v.decodedLayout = v.layout := by
  simp [decodedName, decodedLayout, h]

/-- An array or a matrix that is taken for a matrix is shown as that one. -/
theorem decoded_of_some {m : MatrixName} {s : VariableStrategy} (h : v.decodedMatrix? = some m)
    (hs : v.layout.strategy? = some s) : v.decodedName = m.base ∧ v.decodedLayout = .matrix m.rows m.cols s := by
  simp [decodedName, decodedLayout, h, hs]

theorem decodedMatrix?_of_not_isScalar (h : v.layout.isScalar = false) :
    v.decodedMatrix? = MatrixName.ofText? v.name := by
  simp [decodedMatrix?, h]

theorem isScalar_of_decodedMatrix? {m : MatrixName} (h : v.decodedMatrix? = some m) : v.layout.isScalar = false := by
  by_contra hne
  simp [decodedMatrix?, hne] at h

theorem mem_places {place : String × Option Nat} : place ∈ v.places ↔
    ∃ i < v.size, place = (v.name, if v.layout.isScalar then none else some i) := by
  rw [places, List.mem_map]
  constructor
  · rintro ⟨i, hi, rfl⟩
    exact ⟨i, List.mem_range.1 hi, rfl⟩
  · rintro ⟨i, hi, rfl⟩
    exact ⟨i, List.mem_range.2 hi, rfl⟩

end Variable

/-- The value has the shape of a layout. -/
def SolvedValue.HasLayout : SolvedValue → Layout → Prop
  | .scalar _, .scalar => True
  | .sequence cells, .array length _ => cells.length = length
  | .matrix grid, .matrix rows cols _ => grid.length = rows ∧ ∀ row ∈ grid, row.length = cols
  | _, _ => False

@[simp]
theorem SolvedValue.hasLayout_scalar {x : SolvedValue} : x.HasLayout .scalar ↔ ∃ cell, x = .scalar cell := by
  cases x <;> simp [HasLayout]

@[simp]
theorem SolvedValue.hasLayout_array {x : SolvedValue} {length : Nat} {s : VariableStrategy} :
    x.HasLayout (.array length s) ↔ ∃ cells, x = .sequence cells ∧ cells.length = length := by
  cases x <;> simp [HasLayout]

/-- Cells are cut into as many rows and columns as asked for. -/
theorem hasLayout_unflatten (cells : List Cell) (rows cols : Nat) (s : VariableStrategy) :
    (SolvedValue.matrix (unflatten cells rows cols)).HasLayout (.matrix rows cols s) :=
  ⟨length_unflatten cells rows cols, fun _ hrow => length_of_mem_unflatten hrow⟩

/-! ## Records and places -/

namespace Record

/-- What the record is about. -/
def place (r : Record) : String × Option Nat := (r.name, r.position)

/-- The value is a record of the place, assigned or not. -/
def IsOf (place : String × Option Nat) (v : Json) : Prop :=
  ∃ (d : Fields) (assigned : Bool), v = .obj d ∧ d.get? "name" = some (.str place.1) ∧
    d.get? "assigned" = some (.bool assigned) ∧ d.get? "position" = place.2.map fun n => .int n

variable {place : String × Option Nat} {v : Json} {r : Record}

/-- The position of a place is read as itself unless it is too great. -/
theorem positionOf_eq_ok_of_place {d : Fields} {position p : Option Nat}
    (h : d.get? "position" = position.map fun n => .int n) :
    positionOf d = .ok p ↔ p = position ∧ ∀ n, position = some n → n ≤ maxPosition := by
  cases position with
  | none => simp [positionOf_of_get?_none h, eq_comm]
  | some n =>
    rw [positionOf_eq_ok h]
    constructor
    · rintro ⟨m, hcount, hm, rfl⟩
      obtain ⟨hn, -⟩ := Json.asCount?_eq_some_iff.1 hcount
      obtain rfl := Int.ofNat.inj (Json.int.inj hn)
      exact ⟨rfl, fun k hk => Option.some.inj hk ▸ hm⟩
    · rintro ⟨rfl, hmax⟩
      have hn := hmax n rfl
      exact ⟨n, Json.asCount?_natCast (lt_bound64_of_le_maxPosition hn), hn, rfl⟩

/-- **What is read from a record of a place is about that place.** -/
theorem place_of_isOf (h : IsOf place v) (hr : ofJson v = .ok r) :
    r.place = place ∧ ∀ n, place.2 = some n → n ≤ maxPosition := by
  obtain ⟨d, assigned, rfl, hname, hassigned, hposition⟩ := h
  simp only [ofJson, Json.asFields?, hname, hassigned, Option.bind_some, Json.asString?, Json.asBool?] at hr
  obtain ⟨p, hp, hr⟩ := Except.bind_eq_ok.1 hr
  cases hr
  obtain ⟨rfl, hmax⟩ := (positionOf_eq_ok_of_place hposition).1 hp
  exact ⟨rfl, hmax⟩

/-- **A record of a place is read** unless its position is too great. -/
theorem exists_ofJson_of_isOf (h : IsOf place v) (hmax : ∀ n, place.2 = some n → n ≤ maxPosition) :
    ∃ r, ofJson v = .ok r := by
  obtain ⟨d, assigned, rfl, hname, hassigned, hposition⟩ := h
  have hp := (positionOf_eq_ok_of_place hposition).2 ⟨rfl, hmax⟩
  refine ⟨⟨place.1, cellOf assigned d, place.2⟩, ?_⟩
  simp [ofJson, Json.asFields?, hname, hassigned, Json.asString?, Json.asBool?, hp]

end Record

/-- The values are one record of each scalar and of each cell of the variables, in any order. -/
def FullReport (vars : List Variable) (records : List Json) : Prop :=
  ∃ places, places.Perm (vars.flatMap Variable.places) ∧ List.Forall₂ Record.IsOf places records

/-- A report of places, all assigned. -/
def reportOf (value : String × Option Nat → Json) (places : List (String × Option Nat)) : List Json :=
  places.map fun place => .obj (("name", .str place.1) :: ("assigned", .bool true) :: ("value", value place) ::
    (place.2.map fun n => ("position", .int n)).toList)

/-- **Any variables have full reports**, in any order and with any values. -/
theorem fullReport_reportOf {vars : List Variable} {places : List (String × Option Nat)}
    (value : String × Option Nat → Json) (hp : places.Perm (vars.flatMap Variable.places)) :
    FullReport vars (reportOf value places) := by
  refine ⟨places, hp, ?_⟩
  rw [reportOf, List.forall₂_map_right_iff, List.forall₂_same]
  intro place _
  refine ⟨_, true, rfl, by simp, by simp, ?_⟩
  cases place.2 <;> simp

/-- Variables that reports can be about: names differ, none is without cells, and the name of a matrix is read as its
shape. -/
structure Reportable (vars : List Variable) : Prop where
  names : (vars.map Variable.name).Nodup
  sized : ∀ v ∈ vars, 0 < v.size
  read : ∀ v ∈ vars, ∀ rows cols s, v.layout = .matrix rows cols s →
    ∃ base, MatrixName.ofText? v.name = some ⟨rows, cols, base⟩

/-- A matrix is taken for itself, and what is taken for no matrix is left as it is. -/
theorem Reportable.decodedLayout_eq {vars : List Variable} {v : Variable} (hv : Reportable vars) (hvv : v ∈ vars)
    (h : v.layout.isMatrix = true ∨ v.decodedMatrix? = none) : v.decodedLayout = v.layout := by
  rcases h with h | h
  · cases hl : v.layout with
    | scalar => simp [hl, Layout.isMatrix] at h
    | array length s => simp [hl, Layout.isMatrix] at h
    | matrix rows cols s =>
      have hscalar : v.layout.isScalar = false := by rw [hl]; rfl
      obtain ⟨base, hread⟩ := hv.read v hvv rows cols s hl
      have hmatrix := (Variable.decodedMatrix?_of_not_isScalar hscalar).trans hread
      exact (Variable.decoded_of_some hmatrix (by rw [hl]; rfl)).2
  · exact (Variable.decoded_of_none h).2

namespace Record

variable {vars : List Variable} {rs : List Record} {r : Record} {v : Variable}

/-- A place is that of one variable only. -/
theorem mem_places_of_name (hn : (vars.map Variable.name).Nodup) (hvv : v ∈ vars) (hr : r.place ∈ vars.flatMap Variable.places)
    (hname : r.name = v.name) : r.place ∈ v.places := by
  obtain ⟨w, hw, hplace⟩ := List.mem_flatMap.1 hr
  obtain ⟨i, -, heq⟩ := Variable.mem_places.1 hplace
  have hwname : w.name = v.name := (congrArg Prod.fst heq).symm.trans hname
  rwa [← List.inj_on_of_nodup_map hn hw hvv hwname]

theorem isSome_position (h : r.place ∈ v.places) : r.position.isSome = !v.layout.isScalar := by
  obtain ⟨i, -, heq⟩ := Variable.mem_places.1 h
  rw [show r.position = _ from congrArg Prod.snd heq]
  cases v.layout.isScalar <;> rfl

/-- **Records of places of the variables go together.** -/
theorem consistent_of_places (hn : (vars.map Variable.name).Nodup)
    (hrs : ∀ r ∈ rs, r.place ∈ vars.flatMap Variable.places) : Consistent rs := by
  intro name r hr s hs
  obtain ⟨hr, hrname⟩ := mem_own.1 hr
  obtain ⟨hs, hsname⟩ := mem_own.1 hs
  obtain ⟨v, hvv, hplace⟩ := List.mem_flatMap.1 (hrs r hr)
  obtain ⟨i, -, heq⟩ := Variable.mem_places.1 hplace
  have hname : s.name = v.name := hsname.trans (hrname.symm.trans (congrArg Prod.fst heq))
  rw [isSome_position hplace, isSome_position (mem_places_of_name hn hvv (hrs s hs) hname)]

section Full

variable (hv : Reportable vars) (hfull : (rs.map place).Perm (vars.flatMap Variable.places))
include hv hfull

theorem consistent_of_full : Consistent rs :=
  consistent_of_places hv.names fun _ hr => hfull.mem_iff.1 (List.mem_map_of_mem hr)

/-- The records of a variable's name are those of its places. -/
theorem exists_mem_own_iff (hvv : v ∈ vars) {p : String × Option Nat} :
    (∃ r ∈ own rs v.name, r.place = p) ↔ p ∈ v.places := by
  constructor
  · rintro ⟨r, hr, rfl⟩
    obtain ⟨hr, hname⟩ := mem_own.1 hr
    exact mem_places_of_name hv.names hvv (hfull.mem_iff.1 (List.mem_map_of_mem hr)) hname
  · intro hp
    obtain ⟨r, hr, rfl⟩ := List.mem_map.1 (hfull.mem_iff.2 (List.mem_flatMap.2 ⟨v, hvv, hp⟩))
    obtain ⟨i, -, heq⟩ := Variable.mem_places.1 hp
    exact ⟨r, mem_own.2 ⟨hr, congrArg Prod.fst heq⟩, rfl⟩

/-- The sequence of a variable's cells is as long as the variable. -/
theorem extent_eq_size (hvv : v ∈ vars) (hl : v.layout.isScalar = false) : extent (own rs v.name) = v.size := by
  have hmem := fun p => exists_mem_own_iff hv hfull hvv (p := p)
  refine eq_of_forall_lt_iff fun i => ?_
  rw [lt_extent]
  constructor
  · rintro ⟨r, hr, p, hp, hip⟩
    obtain ⟨j, hj, heq⟩ := Variable.mem_places.1 ((hmem _).1 ⟨r, hr, rfl⟩)
    have hpos := congrArg Prod.snd heq
    simp only [place, hp, hl] at hpos
    cases hpos
    exact Nat.lt_of_le_of_lt hip hj
  · intro hi
    obtain ⟨r, hr, heq⟩ := (hmem _).2 (Variable.mem_places.2 ⟨i, hi, rfl⟩)
    have hpos := congrArg Prod.snd heq
    simp only [place, hl] at hpos
    exact ⟨r, hr, i, hpos, Nat.le_refl i⟩

/-- **The records of a variable's name give a value in the layout that the solver reports.** -/
theorem valueOf?_of_full (hvv : v ∈ vars) : ∃ x, valueOf? (own rs v.name) = some x ∧ x.HasLayout v.wireLayout := by
  have hmem := fun p => exists_mem_own_iff hv hfull hvv (p := p)
  obtain ⟨r, hr, hplace⟩ := (hmem _).2 (Variable.mem_places.2 ⟨0, hv.sized v hvv, rfl⟩)
  have hsome := isSome_position ((hmem _).1 ⟨r, hr, rfl⟩)
  rcases (consistent_of_full hv hfull v.name).cases with ⟨hnil, -⟩ | ⟨-, hall, s, -, hvalue⟩ | ⟨-, hall, hvalue⟩
  · rw [hnil] at hr
    cases hr
  · rw [hall r hr] at hsome
    have hl : v.layout.isScalar = true := by simpa using hsome.symm
    exact ⟨_, hvalue, by simp [Variable.wireLayout, hl]⟩
  · rw [hall r hr] at hsome
    have hl : v.layout.isScalar = false := by simpa using hsome.symm
    have hlength : (cells (own rs v.name)).length = v.size := by
      rw [cells, List.length_map, List.length_range, extent_eq_size hv hfull hvv hl]
    exact ⟨_, hvalue, by simp [Variable.wireLayout, hl, hlength]⟩

end Full

end Record

/-! ## Solutions from full reports -/

/-- A name that comes twice is that of two items. -/
theorem exists_ne_of_two_le_count {α : Type} {l : List α} {f : α → String} {name : String} (hn : l.Nodup)
    (h : 2 ≤ (l.map f).count name) : ∃ a ∈ l, ∃ b ∈ l, a ≠ b ∧ f a = name ∧ f b = name := by
  have hlength : (l.map f).count name = (l.filter fun a => f a == name).length := by
    rw [List.count_eq_countP, List.countP_map, List.countP_eq_length_filter]
    rfl
  have hfilter : (l.filter fun a => f a == name).Nodup := hn.filter _
  have hmem : ∀ a ∈ l.filter fun a => f a == name, a ∈ l ∧ f a = name := by simp
  rw [hlength] at h
  match hl : l.filter fun a => f a == name with
  | [] => simp [hl] at h
  | [a] => simp [hl] at h
  | a :: b :: rest =>
    rw [hl] at hfilter hmem
    obtain ⟨ha, hfa⟩ := hmem a List.mem_cons_self
    obtain ⟨hb, hfb⟩ := hmem b (List.mem_cons_of_mem _ List.mem_cons_self)
    have hne : a ≠ b := by
      rintro rfl
      exact (List.nodup_cons.1 hfilter).1 List.mem_cons_self
    exact ⟨a, ha, b, hb, hne, hfa, hfb⟩

namespace Solution

open Record

variable {vars : List Variable} {rs : List Record} {records : List Json} {entries : OrderedMap SolvedValue}
  {v : Variable}

/-- **Reshaping brings a value to the decoded name and layout of its variable.** -/
theorem reshape_hasLayout {x : SolvedValue} (hv : Reportable vars) (hvv : v ∈ vars) (hx : x.HasLayout v.wireLayout) :
    (reshape (v.name, x)).1 = v.decodedName ∧ (reshape (v.name, x)).2.HasLayout v.decodedLayout := by
  cases hm : v.decodedMatrix? with
  | none =>
    obtain ⟨hname, hlayout⟩ := Variable.decoded_of_none hm
    rw [hname, hlayout]
    cases hl : v.layout with
    | scalar =>
      obtain ⟨cell, rfl⟩ : ∃ cell, x = .scalar cell := by simpa [Variable.wireLayout, hl, Layout.isScalar] using hx
      exact ⟨rfl, trivial⟩
    | array length s =>
      have hscalar : v.layout.isScalar = false := by rw [hl]; rfl
      have hsize : v.size = length := by simp [Variable.size, hl, Layout.size, Layout.grid]
      obtain ⟨cells, rfl, hlength⟩ : ∃ cells, x = .sequence cells ∧ cells.length = length := by
        simpa [Variable.wireLayout, hscalar, hsize] using hx
      have hread := (Variable.decodedMatrix?_of_not_isScalar hscalar).symm.trans hm
      have hreshape : reshape (v.name, .sequence cells) = (v.name, .sequence cells) := by simp only [reshape, hread]
      rw [hreshape]
      exact ⟨rfl, hlength⟩
    | matrix rows cols s =>
      -- The name of a matrix is read, so that its cells are taken for one.
      have hscalar : v.layout.isScalar = false := by rw [hl]; rfl
      obtain ⟨base, hread⟩ := hv.read v hvv rows cols s hl
      rw [Variable.decodedMatrix?_of_not_isScalar hscalar, hread] at hm
      cases hm
  | some m =>
    have hscalar := Variable.isScalar_of_decodedMatrix? hm
    obtain ⟨s, hs⟩ := Layout.exists_strategy? hscalar
    obtain ⟨hname, hlayout⟩ := Variable.decoded_of_some hm hs
    obtain ⟨cells, rfl, -⟩ : ∃ cells, x = .sequence cells ∧ cells.length = v.size := by
      simpa [Variable.wireLayout, hscalar] using hx
    have hread := (Variable.decodedMatrix?_of_not_isScalar hscalar).symm.trans hm
    have hreshape : reshape (v.name, .sequence cells) = (m.base, .matrix (unflatten cells m.rows m.cols)) := by
      simp only [reshape, hread]
    rw [hname, hlayout, hreshape]
    exact ⟨rfl, hasLayout_unflatten cells m.rows m.cols s⟩

section Entries

variable (hv : Reportable vars) (hfull : (rs.map place).Perm (vars.flatMap Variable.places)) (hg : Gathered rs entries)
include hv hfull hg

/-- Each variable has an entry that reshaping brings to its decoded name and layout. -/
theorem exists_entry_of_full (hvv : v ∈ vars) : ∃ x, entries.get? v.name = some x ∧
    (reshape (v.name, x)).1 = v.decodedName ∧ (reshape (v.name, x)).2.HasLayout v.decodedLayout := by
  obtain ⟨x, hx, hshape⟩ := valueOf?_of_full hv hfull hvv
  exact ⟨x, (hg.get? v.name).trans hx, reshape_hasLayout hv hvv hshape⟩

/-- The gathered names are those of the variables. -/
theorem keys_perm_of_full : entries.keys.Perm (vars.map Variable.name) := by
  refine hg.keys_perm hv.names fun name => ?_
  rw [List.mem_map]
  constructor
  · rintro ⟨v, hvv, rfl⟩
    obtain ⟨r, hr, -⟩ :=
      (exists_mem_own_iff hv hfull hvv).2 (Variable.mem_places.2 ⟨0, hv.sized v hvv, rfl⟩)
    exact ⟨r, mem_own.1 hr⟩
  · rintro ⟨r, hr, rfl⟩
    obtain ⟨v, hvv, hplace⟩ := List.mem_flatMap.1 (hfull.mem_iff.1 (List.mem_map_of_mem hr))
    obtain ⟨i, -, heq⟩ := Variable.mem_places.1 hplace
    exact ⟨v, hvv, (congrArg Prod.fst heq).symm⟩

/-- Reshaped entries have the decoded names. -/
theorem keys_reshape_perm_of_full :
    (OrderedMap.keys (entries.map reshape)).Perm (vars.map Variable.decodedName) := by
  refine keys_reshape_perm_of hg.nodup (keys_perm_of_full hv hfull hg) fun v hvv => ?_
  obtain ⟨x, hx, hname, -⟩ := exists_entry_of_full hv hfull hg hvv
  exact ⟨x, hx, hname⟩

end Entries

/-- What is read from a full report are records of the places of the variables. -/
theorem full_of_parsed (hr : FullReport vars records) (hp : Parsed records rs) :
    (rs.map place).Perm (vars.flatMap Variable.places) := by
  obtain ⟨places, hperm, hplaces⟩ := hr
  have hmap : rs.map place = places := by
    clear hperm
    induction hplaces generalizing rs with
    | nil =>
      cases hp
      rfl
    | cons hv _ ih =>
      cases hp with
      | cons hread hp =>
        have hplace := (place_of_isOf hv hread).1
        rw [List.map_cons, hplace, ih hp]
  rwa [hmap]

/-- All that can be read from a full report is about places of the variables. -/
theorem place_mem_of_fullReport {w : Json} {r : Record} (hr : FullReport vars records) (hw : w ∈ records)
    (hread : Record.ofJson w = .ok r) : r.place ∈ vars.flatMap Variable.places := by
  obtain ⟨places, hperm, hplaces⟩ := hr
  obtain ⟨place, hplace, hw⟩ := exists_of_forall₂ hplaces w hw
  rw [(place_of_isOf hw hread).1]
  exact hperm.mem_iff.1 hplace

/-- A full report is read if no variable has more cells than there are positions. -/
theorem exists_parsed_of_fullReport (hr : FullReport vars records) (hsmall : ∀ v ∈ vars, v.size ≤ maxPosition + 1) :
    ∃ rs, Parsed records rs := by
  obtain ⟨places, hperm, hplaces⟩ := hr
  have hmax : ∀ place ∈ places, ∀ n, place.2 = some n → n ≤ maxPosition := by
    intro place hplace n hn
    obtain ⟨v, hvv, hplace⟩ := List.mem_flatMap.1 (hperm.mem_iff.1 hplace)
    obtain ⟨i, hi, rfl⟩ := Variable.mem_places.1 hplace
    have hsize := hsmall v hvv
    simp only at hn
    split at hn
    · cases hn
    · cases hn
      omega
  clear hperm
  induction hplaces with
  | nil => exact ⟨[], .nil⟩
  | cons hv _ ih =>
    obtain ⟨r, hread⟩ := exists_ofJson_of_isOf hv (hmax _ List.mem_cons_self)
    obtain ⟨rs, hp⟩ := ih fun place hplace => hmax place (List.mem_cons_of_mem _ hplace)
    exact ⟨r :: rs, .cons hread hp⟩

variable (hv : Reportable vars) (hr : FullReport vars records)
include hv hr

/-- **A conflict is about two variables of one decoded name.** -/
theorem two_le_count_of_fullReport {name : String} (h : ofRecords records = .error (.shapeConflict name)) :
    2 ≤ (vars.map Variable.decodedName).count name := by
  -- Not all records need be read here, as a position may be too great; those that are go together.
  have hc : ∀ rs, (∀ r ∈ rs, ∃ w ∈ records, Record.ofJson w = .ok r) → Consistent rs := by
    intro rs hrs
    refine consistent_of_places hv.names fun r hmem => ?_
    obtain ⟨w, hw, hread⟩ := hrs r hmem
    exact place_mem_of_fullReport hr hw hread
  obtain ⟨rs, entries, hp, hg, hcount⟩ := two_le_count_of_ofRecords h hc
  rwa [(keys_reshape_perm_of_full hv (full_of_parsed hr hp) hg).count_eq] at hcount

/-- Of the two variables, one at least is taken for a matrix, as the names themselves differ. -/
theorem exists_ne_of_fullReport {name : String} (h : ofRecords records = .error (.shapeConflict name)) :
    ∃ v ∈ vars, ∃ w ∈ vars, v ≠ w ∧ v.decodedName = name ∧ w.decodedName = name ∧ v.decodedMatrix? ≠ none := by
  have hcount := two_le_count_of_fullReport hv hr h
  obtain ⟨v, hvv, w, hw, hne, hvname, hwname⟩ := exists_ne_of_two_le_count (List.Nodup.of_map _ hv.names) hcount
  -- If neither were taken for a matrix, the decoded names would be the names on the wire.
  cases hvm : v.decodedMatrix? with
  | some m => exact ⟨v, hvv, w, hw, hne, hvname, hwname, by simp [hvm]⟩
  | none =>
    refine ⟨w, hw, v, hvv, hne.symm, hwname, hvname, fun hwm => hne ?_⟩
    have hname : v.name = w.name := by
      rw [← (Variable.decoded_of_none hvm).1, ← (Variable.decoded_of_none hwm).1, hvname, hwname]
    exact List.inj_on_of_nodup_map hv.names hvv hw hname

/-- **A solution has one entry for each variable**, under its decoded name and in its decoded layout. -/
theorem hasLayout_of_fullReport {s : Solution} (h : ofRecords records = .ok s) :
    s.names.Perm (vars.map Variable.decodedName) ∧ (vars.map Variable.decodedName).Nodup ∧
      ∀ v ∈ vars, ∃ x, s.get? v.decodedName = some x ∧ x.HasLayout v.decodedLayout := by
  obtain ⟨rs, entries, hp, -, hg, hn, he⟩ := exists_of_ofRecords h
  have hfull := full_of_parsed hr hp
  have hkeys := keys_reshape_perm_of_full hv hfull hg
  refine ⟨by rw [names, he]; exact hkeys, hkeys.nodup_iff.1 hn, fun v hvv => ?_⟩
  obtain ⟨x, hx, hname, hlayout⟩ := exists_entry_of_full hv hfull hg hvv
  have hmem := List.mem_map_of_mem (f := reshape) (OrderedMap.mem_of_get? hx)
  refine ⟨_, ?_, hlayout⟩
  rw [get?, he, ← hname]
  exact OrderedMap.get?_of_mem hn hmem

/-- **Within the positions that are read, a report is decoded iff no two variables have one decoded name**, and else
there is a conflict. -/
theorem exists_ofRecords_of_fullReport (hsmall : ∀ v ∈ vars, v.size ≤ maxPosition + 1) :
    ((vars.map Variable.decodedName).Nodup → ∃ s, ofRecords records = .ok s) ∧
      (¬ (vars.map Variable.decodedName).Nodup → ∃ name, ofRecords records = .error (.shapeConflict name)) := by
  obtain ⟨rs, hp⟩ := exists_parsed_of_fullReport hr hsmall
  have hfull := full_of_parsed hr hp
  have hc := consistent_of_full hv hfull
  obtain ⟨entries, hg, hok⟩ := ofRecords_of_consistent hp hc
  obtain ⟨entries', hg', hconflict⟩ := exists_conflict_of_consistent hp hc
  rw [(keys_reshape_perm_of_full hv hfull hg).nodup_iff] at hok
  rw [(keys_reshape_perm_of_full hv hfull hg').nodup_iff] at hconflict
  exact ⟨fun hn => ⟨_, hok hn⟩, hconflict⟩

end Solution

end SolverClient
