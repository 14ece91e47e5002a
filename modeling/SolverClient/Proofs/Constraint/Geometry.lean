import SolverClient.Proofs.Constraint.View

/-!
# Where a part of a matrix lies

A constraint that is made over a part of a matrix has a selection that lies in the matrix and has its size
(`Constraint.placedIn_of_madeFrom`), and every such selection can be made. A document is read whatever its numbers are:
the reader looks for a matrix of the name, and no further. What can be made and what can be read are told apart in
`Constraint.exists_distinctPart_iff`.
-/

namespace SolverClient

namespace Selection

/-- The selection lies in a matrix of the shape and has its size, which for a column is the number of rows. -/
def FitsIn (rows cols : Nat) : Selection → Prop
  | whole => True
  | row size index => size = cols ∧ index < rows
  | column size index => size = rows ∧ index < cols
  | slice size r₀ c₀ r₁ c₁ => size = cols ∧ (r₀ ≤ r₁ ∧ r₁ < rows) ∧ c₀ ≤ c₁ ∧ c₁ < cols

/-- The selection fits in a matrix of the list that has the name. -/
def PlacedIn (vars : List Variable) (array : String) (s : Selection) : Prop :=
  ∃ v ∈ vars, v.name = array ∧ ∃ rows cols strategy, v.layout = .matrix rows cols strategy ∧ s.FitsIn rows cols

variable {s : Selection} {rows cols : Nat}

/-- **A part fits iff it is the selection of a region that lies inside.** -/
theorem fitsIn_iff (h : s ≠ .whole) :
    s.FitsIn rows cols ↔ ∃ region : Region, region.Inside rows cols ∧ s = region.selection rows cols := by
  constructor
  · intro hfits
    cases s with
    | whole => exact absurd rfl h
    | row size index =>
      obtain ⟨rfl, hinside⟩ := hfits
      exact ⟨.row index, hinside, rfl⟩
    | column size index =>
      obtain ⟨rfl, hinside⟩ := hfits
      exact ⟨.column index, hinside, rfl⟩
    | slice size r₀ c₀ r₁ c₁ =>
      obtain ⟨rfl, hinside⟩ := hfits
      exact ⟨.slice r₀ c₀ r₁ c₁, hinside, rfl⟩
  · rintro ⟨region, hinside, rfl⟩
    cases region with
    | row r => exact ⟨rfl, hinside⟩
    | column c => exact ⟨rfl, hinside⟩
    | slice r₀ c₀ r₁ c₁ => exact ⟨rfl, hinside⟩

end Selection

/-- A demand that cells differ does not depend on the kind of values. -/
theorem Demand.withKind_eq_distinct {demand : Demand} {kind : ValueKind} {array : String} {s : Selection} :
    demand.withKind kind = .distinct array s ↔ demand = .distinct array s := by
  cases demand <;> simp [withKind]

namespace Constraint

section Parts

variable {vars : List Variable} {c : Constraint} {array : String} {s : Selection}

/-- What is demanded over a view is placed in the matrix of the view. -/
theorem placedIn_of_distinctView (view : View) (hv : view.array ∈ vars) (h : distinctView view = .ok c)
    (hc : c.demand = .distinct array s) : s.PlacedIn vars array := by
  obtain ⟨rows, cols, strategy, hl, hinside, rfl⟩ := distinctView_eq_ok.1 h
  cases hc
  exact ⟨view.array, hv, rfl, rows, cols, strategy, hl,
    (Selection.fitsIn_iff Region.selection_ne_whole).2 ⟨view.region, hinside, rfl⟩⟩

/-- **A part of a matrix that a made constraint is about is placed in it.** -/
theorem placedIn_of_madeFrom (h : MadeFrom vars c) (hs : s ≠ .whole) (hc : c.demand = .distinct array s) :
    s.PlacedIn vars array := by
  induction h with
  | member _ _ h => obtain ⟨-, rfl⟩ := member_eq_ok.1 h; cases hc
  | element _ _ _ h => obtain ⟨-, rfl⟩ := element_eq_ok.1 h; cases hc
  | sorted _ h => obtain ⟨-, rfl⟩ := sorted_eq_ok.1 h; cases hc
  | distinct _ h =>
    obtain ⟨-, rfl⟩ := distinct_eq_ok.1 h
    cases hc
    exact absurd rfl hs
  -- the other makers of parts are those of views
  | @distinctRow matrix row _ hv h => exact placedIn_of_distinctView ⟨matrix, .row row⟩ hv h hc
  | @distinctColumn matrix col _ hv h => exact placedIn_of_distinctView ⟨matrix, .column col⟩ hv h hc
  | @distinctSlice matrix r₀ c₀ r₁ c₁ _ hv h =>
    exact placedIn_of_distinctView ⟨matrix, .slice r₀ c₀ r₁ c₁⟩ hv h hc
  | distinctView hv h => exact placedIn_of_distinctView _ hv h hc
  | withName _ _ ih => exact ih hc
  | withKind _ _ ih => exact ih (Demand.withKind_eq_distinct.1 hc)
  | _ => cases hc

/-- Every part that fits can be made. -/
theorem exists_madeFrom_of_placedIn (hs : s ≠ .whole) (h : s.PlacedIn vars array) :
    ∃ c, MadeFrom vars c ∧ c.demand = .distinct array s := by
  obtain ⟨v, hv, rfl, rows, cols, strategy, hl, hfits⟩ := h
  obtain ⟨region, hinside, rfl⟩ := (Selection.fitsIn_iff hs).1 hfits
  have hmade := (distinctView_eq_ok_of_layout (v := ⟨v, region⟩) hl).2 ⟨hinside, rfl⟩
  exact ⟨_, .distinctView hv hmade, rfl⟩

/-- **What parts of a matrix can be made, and what parts can be read.** A part can be made iff it fits in a matrix of
that name. It can be read iff its numbers are words and there is a matrix of that name, wherever the part lies. -/
theorem exists_distinctPart_iff (vars : List Variable) (name : Option String) (array : String) (hs : s ≠ .whole) :
    ((∃ c, MadeFrom vars c ∧ c.demand = .distinct array s) ↔ s.PlacedIn vars array) ∧
    ((∃ d, ofFields vars d = .ok ⟨name, .distinct array s⟩) ↔ s.InWords ∧ Variable.NamesMatrix vars array) := by
  refine ⟨⟨fun ⟨c, h, hc⟩ => placedIn_of_madeFrom h hs hc, exists_madeFrom_of_placedIn hs⟩, ?_, ?_⟩
  · rintro ⟨d, hd⟩
    obtain ⟨-, tag, -, hdescribes⟩ := ofFields_eq_ok.1 hd
    exact ⟨hdescribes.inWords, (Demand.resolvedIn_distinct_iff hs).1 hdescribes.resolvedIn⟩
  · rintro ⟨hw, hm⟩
    exact ⟨_, ofFields_toFields (c := ⟨name, .distinct array s⟩) ((Demand.resolvedIn_distinct_iff hs).2 hm) hw
      trivial trivial⟩

/-- The first row of the matrix can be made, and the row after its last one can be read. -/
theorem exists_distinctPart_iff_boardSample :
    (∃ c, MadeFrom [boardSample] c ∧ c.demand = .distinct "MATRIX$2$3$board" (.row 3 0)) ∧
    ∃ d, ofFields [boardSample] d = .ok ⟨none, .distinct "MATRIX$2$3$board" (.row 3 2)⟩ := by
  have hboard : boardSample ∈ [boardSample] := List.mem_singleton_self _
  constructor
  · refine (exists_distinctPart_iff [boardSample] none "MATRIX$2$3$board" (by decide)).1.2 ?_
    exact ⟨boardSample, hboard, rfl, 2, 3, .standard, rfl, rfl, by decide⟩
  · refine (exists_distinctPart_iff [boardSample] none "MATRIX$2$3$board" (by decide)).2.2 ⟨⟨by decide, by decide⟩, ?_⟩
    exact Variable.namesMatrix_of_mem (by decide) hboard rfl

/-- A document about the row after the last one. -/
def outsideDocument : Fields :=
  [("name", .str "d"), ("type", .str "distinct"), ("v1", .str "MATRIX$2$3$board"), ("selection", .str "row"),
    ("size", .int 3), ("index", .int 2)]

/-- **The reader accepts a row that is not in the matrix**, which cannot be made. -/
theorem placedIn_fails_of_outsideDocument :
    ofFields [boardSample] outsideDocument = .ok ⟨some "d", .distinct "MATRIX$2$3$board" (.row 3 2)⟩ ∧
      ¬ (Selection.row 3 2).PlacedIn [boardSample] "MATRIX$2$3$board" ∧
      distinctRow boardSample 2 = .error (.request (.rowOutside 2 2)) := by
  refine ⟨rfl, ?_, rfl⟩
  rintro ⟨v, hv, -, rows, cols, strategy, hl, -, hrow⟩
  obtain rfl := List.mem_singleton.1 hv
  cases hl
  exact absurd hrow (by decide)

end Parts

end Constraint

end SolverClient
