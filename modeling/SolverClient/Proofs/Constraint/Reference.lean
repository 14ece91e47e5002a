import SolverClient.Proofs.Constraint.Document

/-!
# What a tag refers to

The tag of a constraint in a document, and for `distinct` the word for the selection, says which fields name variables
and what each of them has to name (`Demand.Refers`). In a document that describes a demand, the tag is a known one
(`Demand.Describes.mem_tags`) and each of these fields names such a variable (`Demand.Describes.inField`).
-/

namespace SolverClient

/-- What a name has to be the name of. -/
inductive Role where
  /-- Any variable. -/
  | named
  /-- An array or a matrix. -/
  | cells
  | matrix
  deriving DecidableEq

namespace Role

/-- The first variable of the name is of the role. -/
def Fits (vars : List Variable) : Role → String → Prop
  | named => Variable.Named vars
  | cells => Variable.NamesArray vars
  | matrix => Variable.NamesMatrix vars

/-- The field holds the name of a variable of the role. -/
def InField (vars : List Variable) (d : Fields) (key : String) (role : Role) : Prop :=
  ∃ name, d.get? key = some (.str name) ∧ role.Fits vars name

section Readers

variable {vars : List Variable} {d : Fields} {key name : String}

theorem inField_of_reference (h : Variable.reference vars d key = .ok name) : InField vars d key .named :=
  ⟨name, Fields.string_eq_ok.1 (Variable.reference_eq_ok.1 h).1, (Variable.reference_eq_ok.1 h).2⟩

theorem inField_of_arrayReference (h : Variable.arrayReference vars d key = .ok name) : InField vars d key .cells :=
  ⟨name, Fields.string_eq_ok.1 (Variable.arrayReference_eq_ok.1 h).1, (Variable.arrayReference_eq_ok.1 h).2⟩

theorem inField_of_matrixReference {s : Selection} (h : Variable.matrixReference vars d key s = .ok name) :
    InField vars d key .matrix :=
  ⟨name, Fields.string_eq_ok.1 (Variable.matrixReference_eq_ok.1 h).1, (Variable.matrixReference_eq_ok.1 h).2⟩

end Readers

end Role

namespace Demand

/-- All tags of constraints. -/
def tags : List String :=
  ElementaryFunction.all.map ElementaryFunction.tag ++ ArithmeticOperation.all.map ArithmeticOperation.tag ++
    PowerOperation.all.map PowerOperation.tag ++ SortOrder.all.map SortOrder.tag ++
    ["member", "element", "distinct", "rel"]

/-- A document with the tag has to name a variable of the role in the field. -/
inductive Refers (d : Fields) : (tag key : String) → Role → Prop
  | elementary (f : ElementaryFunction) {key : String} (h : key ∈ ["v1", "v2"]) : Refers d f.tag key .named
  | arithmetic (op : ArithmeticOperation) {key : String} (h : key ∈ ["v1", "v2", "v3"]) : Refers d op.tag key .named
  /-- The second field holds the exponent, a number. -/
  | power (op : PowerOperation) {key : String} (h : key ∈ ["v1", "v3"]) : Refers d op.tag key .named
  | memberArray : Refers d "member" "v1" .cells
  | memberValue : Refers d "member" "v2" .named
  | elementArray : Refers d "element" "map" .cells
  | elementNames {key : String} (h : key ∈ ["v1", "v2"]) : Refers d "element" key .named
  | sorted (order : SortOrder) : Refers d order.tag "v1" .cells
  /-- A document without a selection means the whole array. -/
  | distinctWhole {word : Option String} (h : d.string? "selection" = .ok word) (hw : word.getD "standard" = "standard") :
      Refers d "distinct" "v1" .cells
  | distinctPart {word : String} (h : d.string? "selection" = .ok (some word)) (hw : word ∈ ["row", "col", "slice"]) :
      Refers d "distinct" "v1" .matrix

namespace Describes

variable {vars : List Variable} {d : Fields} {tag : String} {c : Demand}

/-- The tag of a described demand is known. -/
theorem mem_tags (h : Describes vars d tag c) : tag ∈ tags := by
  cases h with
  | @elementary f => cases f <;> decide
  | @arithmetic op => cases op <;> decide
  | @power op => cases op <;> decide
  | @sorted order => cases order <;> decide
  | _ => decide

/-- **Each field that the tag refers to names a variable of its role.** -/
theorem inField (h : Describes vars d tag c) {key : String} {role : Role} (hr : Refers d tag key role) :
    role.InField vars d key := by
  have hread := ofFields_of_describes h
  cases hr with
  | elementary f hkey =>
    simp only [ofFields_elementary, Except.bind_eq_ok] at hread
    obtain ⟨operand, hx, result, hz, -⟩ := hread
    rcases List.mem_pair.1 hkey with rfl | rfl
    · exact Role.inField_of_reference hx
    · exact Role.inField_of_reference hz
  | arithmetic op hkey =>
    simp only [ofFields_arithmetic, Except.bind_eq_ok] at hread
    obtain ⟨left, hx, right, hy, result, hz, -⟩ := hread
    simp only [List.mem_cons, List.not_mem_nil, or_false] at hkey
    rcases hkey with rfl | rfl | rfl
    · exact Role.inField_of_reference hx
    · exact Role.inField_of_reference hy
    · exact Role.inField_of_reference hz
  | power op hkey =>
    simp only [ofFields_power, Except.bind_eq_ok] at hread
    obtain ⟨exponent, -, base, hx, result, hz, -⟩ := hread
    rcases List.mem_pair.1 hkey with rfl | rfl
    · exact Role.inField_of_reference hx
    · exact Role.inField_of_reference hz
  | memberArray =>
    simp only [ofFields_member, Except.bind_eq_ok] at hread
    obtain ⟨array, ha, -⟩ := hread
    exact Role.inField_of_arrayReference ha
  | memberValue =>
    simp only [ofFields_member, Except.bind_eq_ok] at hread
    obtain ⟨array, -, value, hx, -⟩ := hread
    exact Role.inField_of_reference hx
  | elementArray =>
    simp only [ofFields_element, Except.bind_eq_ok] at hread
    obtain ⟨array, ha, -⟩ := hread
    exact Role.inField_of_arrayReference ha
  | elementNames hkey =>
    simp only [ofFields_element, Except.bind_eq_ok] at hread
    obtain ⟨array, -, index, hi, value, hx, -⟩ := hread
    rcases List.mem_pair.1 hkey with rfl | rfl
    · exact Role.inField_of_reference hi
    · exact Role.inField_of_reference hx
  | sorted order =>
    simp only [ofFields_sorted, Except.bind_eq_ok] at hread
    obtain ⟨array, ha, -⟩ := hread
    exact Role.inField_of_arrayReference ha
  | distinctWhole hword hw =>
    simp only [ofFields_distinct, distinctOf, Except.bind_eq_ok] at hread
    obtain ⟨s, hs, hread⟩ := hread
    have htag := Selection.tag_eq_of_ofFields hs hword
    rw [hw] at htag
    cases s with
    | whole =>
      obtain ⟨array, ha, -⟩ := Except.bind_eq_ok.1 hread
      exact Role.inField_of_arrayReference ha
    | _ => simp [Selection.tag] at htag
  | distinctPart hword hw =>
    simp only [ofFields_distinct, distinctOf, Except.bind_eq_ok] at hread
    obtain ⟨s, hs, hread⟩ := hread
    have htag := Selection.tag_eq_of_ofFields hs hword
    simp only [Option.getD_some] at htag
    cases s with
    | whole => simp [htag, Selection.tag] at hw
    | row size index | column size index | slice size startRow startCol endRow endCol =>
      obtain ⟨array, ha, -⟩ := Except.bind_eq_ok.1 hread
      exact Role.inField_of_matrixReference ha

end Describes

end Demand

end SolverClient
