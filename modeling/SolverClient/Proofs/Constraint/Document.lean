import SolverClient.Proofs.Constraint.Selection
import SolverClient.Proofs.Variable.Reference

/-!
# Constraints are read back

An object **describes** a demand over the variables of a model (`Demand.Describes`) if it has the fields of the demand's
tag and its references resolve; the reader accepts just such objects (`Demand.ofFields_eq_ok`). A demand is read back
from the fields of its constraint (`Constraint.ofFields_toFields`) if its names resolve (`Demand.ResolvedIn`), its
integers are words (`Demand.InWords`), its exponent is finite (`Demand.IsFinite`) and its second branch is not taken for
one that is not there (`Demand.KeepsBranch`). Everything that was read is such, the exponent if a text can hold the
document.
-/

namespace SolverClient

/-! ## Tags -/

section Tags

theorem ElementaryFunction.ofTag?_tag (f : ElementaryFunction) : ofTag? f.tag = some f := by
  cases f <;> decide +kernel

theorem ElementaryFunction.tag_of_ofTag? {s : String} {f : ElementaryFunction} (h : ofTag? s = some f) : f.tag = s := by
  simpa using List.find?_some h

theorem ArithmeticOperation.ofTag?_tag (op : ArithmeticOperation) : ofTag? op.tag = some op := by
  cases op <;> decide +kernel

theorem ArithmeticOperation.tag_of_ofTag? {s : String} {op : ArithmeticOperation} (h : ofTag? s = some op) :
    op.tag = s := by
  simpa using List.find?_some h

theorem PowerOperation.ofTag?_tag (op : PowerOperation) : ofTag? op.tag = some op := by
  cases op <;> decide +kernel

theorem PowerOperation.tag_of_ofTag? {s : String} {op : PowerOperation} (h : ofTag? s = some op) : op.tag = s := by
  simpa using List.find?_some h

theorem SortOrder.ofTag?_tag (order : SortOrder) : ofTag? order.tag = some order := by
  cases order <;> decide +kernel

theorem SortOrder.tag_of_ofTag? {s : String} {order : SortOrder} (h : ofTag? s = some order) : order.tag = s := by
  simpa using List.find?_some h

end Tags

namespace Demand

/-! ## Descriptions -/

/-- The object has the fields of the tag, and they hold the demand. -/
inductive Describes (vars : List Variable) (d : Fields) : String → Demand → Prop
  | elementary {f : ElementaryFunction} {operand result : String} (hx : Variable.reference vars d "v1" = .ok operand)
      (hz : Variable.reference vars d "v2" = .ok result) : Describes vars d f.tag (.elementary f operand result)
  | arithmetic {op : ArithmeticOperation} {left right result : String}
      (hx : Variable.reference vars d "v1" = .ok left) (hy : Variable.reference vars d "v2" = .ok right)
      (hz : Variable.reference vars d "v3" = .ok result) : Describes vars d op.tag (.arithmetic op left right result)
  | power {op : PowerOperation} {base result : String} {exponent : Numeric} (he : exponentOf d = .ok exponent)
      (hx : Variable.reference vars d "v1" = .ok base) (hz : Variable.reference vars d "v3" = .ok result) :
      Describes vars d op.tag (.power op base exponent result)
  | member {array value : String} (ha : Variable.arrayReference vars d "v1" = .ok array)
      (hx : Variable.reference vars d "v2" = .ok value) : Describes vars d "member" (.member array value)
  | element {array index value : String} (ha : Variable.arrayReference vars d "map" = .ok array)
      (hi : Variable.reference vars d "v1" = .ok index) (hx : Variable.reference vars d "v2" = .ok value) :
      Describes vars d "element" (.element array index value)
  | sorted {order : SortOrder} {array : String} (ha : Variable.arrayReference vars d "v1" = .ok array) :
      Describes vars d order.tag (.sorted order array)
  | distinctWhole {array : String} (hs : Selection.ofFields d = .ok .whole)
      (ha : Variable.arrayReference vars d "v1" = .ok array) : Describes vars d "distinct" (.distinct array .whole)
  | distinctPart {array : String} {s : Selection} (hs : Selection.ofFields d = .ok s) (hne : s ≠ .whole)
      (ha : Variable.matrixReference vars d "v1" s = .ok array) : Describes vars d "distinct" (.distinct array s)
  | relation {set sub : Option String} {expr : String} {kind : ValueKind} (hset : d.string? "varset" = .ok set)
      (hkind : kind = (set.map ValueKind.ofSetName).getD .integer) (hsub : d.string? "subtype" = .ok sub)
      (hne : sub ≠ some "ite") (he : d.string "expr" = .ok expr) : Describes vars d "rel" (.relation expr kind)
  | conditional {set branch elseBranch : Option String} {condition thenBranch : String} {kind : ValueKind}
      (hset : d.string? "varset" = .ok set) (hkind : kind = (set.map ValueKind.ofSetName).getD .integer)
      (hsub : d.string? "subtype" = .ok (some "ite")) (hbranch : d.string? "ite_else" = .ok branch)
      (helse : elseBranch = branch.filter fun s => s != "" && s != noBranch)
      (hc : d.string "ite_condition" = .ok condition) (ht : d.string "ite_then" = .ok thenBranch) :
      Describes vars d "rel" (.conditional condition thenBranch elseBranch kind)

section Reader

variable {vars : List Variable} {d : Fields} {tag : String} {c : Demand}

theorem exponentOf_eq_ok {n : Numeric} :
    exponentOf d = .ok n ↔ ∃ v, d.get? "v2" = some v ∧ Numeric.ofJson? v = some n := by
  rw [← Option.bind_eq_some_iff]
  unfold exponentOf
  cases (d.get? "v2").bind Numeric.ofJson? <;> simp

theorem describes_of_relationOf (h : relationOf d = .ok c) : Describes vars d "rel" c := by
  simp only [relationOf, Except.bind_eq_ok] at h
  obtain ⟨set, hset, sub, hsub, h⟩ := h
  split at h
  · rename_i hite
    simp only [Except.bind_eq_ok, Except.pure_eq_ok] at h
    obtain ⟨branch, hbranch, condition, hc, thenBranch, ht, rfl⟩ := h
    exact .conditional hset rfl (hite ▸ hsub) hbranch rfl hc ht
  · rename_i hne
    simp only [Except.bind_eq_ok, Except.pure_eq_ok] at h
    obtain ⟨expr, he, rfl⟩ := h
    exact .relation hset rfl hsub hne he

theorem describes_of_distinctOf (h : distinctOf vars d = .ok c) : Describes vars d "distinct" c := by
  simp only [distinctOf, Except.bind_eq_ok] at h
  obtain ⟨s, hs, h⟩ := h
  split at h
  · simp only [Except.bind_eq_ok, Except.pure_eq_ok] at h
    obtain ⟨array, ha, rfl⟩ := h
    exact .distinctWhole hs ha
  · rename_i hne
    simp only [Except.bind_eq_ok, Except.pure_eq_ok] at h
    obtain ⟨array, ha, rfl⟩ := h
    exact .distinctPart hs hne ha

/-- What is read was described. -/
theorem describes_of_ofFields (h : ofFields tag vars d = .ok c) : Describes vars d tag c := by
  simp only [ofFields] at h
  split at h
  · rename_i f hf
    simp only [Except.bind_eq_ok, Except.pure_eq_ok] at h
    obtain ⟨operand, hx, result, hz, rfl⟩ := h
    exact ElementaryFunction.tag_of_ofTag? hf ▸ .elementary hx hz
  split at h
  · rename_i op hop
    simp only [Except.bind_eq_ok, Except.pure_eq_ok] at h
    obtain ⟨left, hx, right, hy, result, hz, rfl⟩ := h
    exact ArithmeticOperation.tag_of_ofTag? hop ▸ .arithmetic hx hy hz
  split at h
  · rename_i op hop
    simp only [Except.bind_eq_ok, Except.pure_eq_ok] at h
    obtain ⟨exponent, he, base, hx, result, hz, rfl⟩ := h
    exact PowerOperation.tag_of_ofTag? hop ▸ .power he hx hz
  split at h
  · rename_i ht
    simp only [Except.bind_eq_ok, Except.pure_eq_ok] at h
    obtain ⟨array, ha, value, hx, rfl⟩ := h
    exact ht ▸ .member ha hx
  split at h
  · rename_i ht
    simp only [Except.bind_eq_ok, Except.pure_eq_ok] at h
    obtain ⟨array, ha, index, hi, value, hx, rfl⟩ := h
    exact ht ▸ .element ha hi hx
  split at h
  · rename_i order horder
    simp only [Except.bind_eq_ok, Except.pure_eq_ok] at h
    obtain ⟨array, ha, rfl⟩ := h
    exact SortOrder.tag_of_ofTag? horder ▸ .sorted ha
  split at h
  · rename_i ht
    exact ht ▸ describes_of_distinctOf h
  split at h
  · rename_i ht
    exact ht ▸ describes_of_relationOf h
  · cases h

/-! ### The reader that a tag picks

A tag belongs to one family only, so that the readers of the families before it pass. -/

/-- The tags that are no operation of a family are those of no family's operations. -/
theorem ofTag?_eq_none : ∀ tag ∈ ["member", "element", "distinct", "rel"],
    ElementaryFunction.ofTag? tag = none ∧ ArithmeticOperation.ofTag? tag = none ∧
      PowerOperation.ofTag? tag = none ∧ SortOrder.ofTag? tag = none := by
  decide +kernel

theorem ofFields_elementary (f : ElementaryFunction) : ofFields f.tag vars d = do
    return elementary f (← Variable.reference vars d "v1") (← Variable.reference vars d "v2") := by
  simp only [ofFields, ElementaryFunction.ofTag?_tag]

theorem ofFields_arithmetic (op : ArithmeticOperation) : ofFields op.tag vars d = do
    return arithmetic op (← Variable.reference vars d "v1") (← Variable.reference vars d "v2")
      (← Variable.reference vars d "v3") := by
  have hf : ElementaryFunction.ofTag? op.tag = none := by cases op <;> decide +kernel
  simp only [ofFields, hf, ArithmeticOperation.ofTag?_tag]

theorem ofFields_power (op : PowerOperation) : ofFields op.tag vars d = do
    let exponent ← exponentOf d
    return power op (← Variable.reference vars d "v1") exponent (← Variable.reference vars d "v3") := by
  have hf : ElementaryFunction.ofTag? op.tag = none := by cases op <;> decide +kernel
  have ha : ArithmeticOperation.ofTag? op.tag = none := by cases op <;> decide +kernel
  simp only [ofFields, hf, ha, PowerOperation.ofTag?_tag]

theorem ofFields_member : ofFields "member" vars d = do
    return member (← Variable.arrayReference vars d "v1") (← Variable.reference vars d "v2") := by
  obtain ⟨hf, ha, hp, -⟩ := ofTag?_eq_none "member" (by simp)
  simp [ofFields, hf, ha, hp]

theorem ofFields_element : ofFields "element" vars d = do
    return element (← Variable.arrayReference vars d "map") (← Variable.reference vars d "v1")
      (← Variable.reference vars d "v2") := by
  obtain ⟨hf, ha, hp, -⟩ := ofTag?_eq_none "element" (by simp)
  simp [ofFields, hf, ha, hp]

theorem ofFields_sorted (order : SortOrder) : ofFields order.tag vars d = do
    return sorted order (← Variable.arrayReference vars d "v1") := by
  have hf : ElementaryFunction.ofTag? order.tag = none := by cases order <;> decide +kernel
  have ha : ArithmeticOperation.ofTag? order.tag = none := by cases order <;> decide +kernel
  have hp : PowerOperation.ofTag? order.tag = none := by cases order <;> decide +kernel
  have hm : order.tag ≠ "member" := by cases order <;> decide +kernel
  have he : order.tag ≠ "element" := by cases order <;> decide +kernel
  simp [ofFields, hf, ha, hp, hm, he, SortOrder.ofTag?_tag]

theorem ofFields_distinct : ofFields "distinct" vars d = distinctOf vars d := by
  obtain ⟨hf, ha, hp, hs⟩ := ofTag?_eq_none "distinct" (by simp)
  simp [ofFields, hf, ha, hp, hs]

theorem ofFields_rel : ofFields "rel" vars d = relationOf d := by
  obtain ⟨hf, ha, hp, hs⟩ := ofTag?_eq_none "rel" (by simp)
  simp [ofFields, hf, ha, hp, hs]

/-- What is described is read. -/
theorem ofFields_of_describes (h : Describes vars d tag c) : ofFields tag vars d = .ok c := by
  cases h with
  | elementary hx hz => simp [ofFields_elementary, hx, hz]
  | arithmetic hx hy hz => simp [ofFields_arithmetic, hx, hy, hz]
  | power he hx hz => simp [ofFields_power, he, hx, hz]
  | member ha hx => simp [ofFields_member, ha, hx]
  | element ha hi hx => simp [ofFields_element, ha, hi, hx]
  | sorted ha => simp [ofFields_sorted, ha]
  | distinctWhole hs ha => simp [ofFields_distinct, distinctOf, hs, ha]
  | distinctPart hs hne ha => simp [ofFields_distinct, distinctOf, hs, ha]
  | relation hset hkind hsub hne he => simp [ofFields_rel, relationOf, hset, hsub, hne, he, hkind]
  | conditional hset hkind hsub hbranch helse hc ht =>
    simp [ofFields_rel, relationOf, hset, hsub, hbranch, hc, ht, hkind, helse]

/-- **The reader accepts an object iff it describes a demand, and then reads that.** -/
theorem ofFields_eq_ok : ofFields tag vars d = .ok c ↔ Describes vars d tag c :=
  ⟨describes_of_ofFields, ofFields_of_describes⟩

end Reader

/-! ## Demands that can be written -/

/-- All variables that a demand refers to are in the model, with cells or as matrices where it asks for them. An
expression is not looked into. -/
def ResolvedIn (vars : List Variable) : Demand → Prop
  | elementary _ operand result => Variable.Named vars operand ∧ Variable.Named vars result
  | arithmetic _ left right result =>
    Variable.Named vars left ∧ Variable.Named vars right ∧ Variable.Named vars result
  | power _ base _ result => Variable.Named vars base ∧ Variable.Named vars result
  | member array value => Variable.NamesArray vars array ∧ Variable.Named vars value
  | element array index value =>
    Variable.NamesArray vars array ∧ Variable.Named vars index ∧ Variable.Named vars value
  | sorted _ array => Variable.NamesArray vars array
  | distinct array .whole => Variable.NamesArray vars array
  | distinct array _ => Variable.NamesMatrix vars array
  | relation .. => True
  | conditional .. => True

/-- A part of the cells needs a matrix. -/
theorem resolvedIn_distinct_iff {vars : List Variable} {array : String} {s : Selection} (h : s ≠ .whole) :
    (distinct array s).ResolvedIn vars ↔ Variable.NamesMatrix vars array := by
  cases s with
  | whole => exact absurd rfl h
  | row size index => exact Iff.rfl
  | column size index => exact Iff.rfl
  | slice size r₀ c₀ r₁ c₁ => exact Iff.rfl

/-- All integers of a demand are words. -/
def InWords : Demand → Prop
  | power _ _ exponent _ => exponent.InWords
  | distinct _ selection => selection.InWords
  | _ => True

/-- An exponent is finite. -/
def IsFinite : Demand → Prop
  | power _ _ exponent _ => exponent.isFinite = true
  | _ => True

/-- A second branch is neither empty nor the word for one that is not there. -/
def KeepsBranch : Demand → Prop
  | conditional _ _ (some elseBranch) _ => elseBranch ≠ "" ∧ elseBranch ≠ noBranch
  | _ => True

/-- A branch that is kept is read back from the text that is written for it. -/
theorem filter_elseBranch {condition thenBranch : String} {elseBranch : Option String} {kind : ValueKind}
    (h : (conditional condition thenBranch elseBranch kind).KeepsBranch) :
    ((some (elseBranch.getD noBranch)).filter fun s => s != "" && s != noBranch) = elseBranch := by
  cases elseBranch with
  | none => simp [Option.filter]
  | some elseBranch => simp [Option.filter, h.1, h.2]

end Demand

namespace Constraint

section Written

variable {vars : List Variable} {c : Constraint}

theorem get?_toFields_name : c.toFields.get? "name" = some (.ofString? c.name) := by simp [toFields]

theorem get?_toFields {key : String} (h : key ≠ "name") :
    c.toFields.get? key = OrderedMap.get? c.demand.toFields key := by
  simp [toFields, h]

theorem get?_toFields_type : c.toFields.get? "type" = some (.str c.demand.tag) := by
  rw [get?_toFields (by simp)]
  cases c.demand <;> simp [Demand.toFields]

/-- A demand that can be written is described by the fields of its constraint. -/
theorem describes_toFields (hr : c.demand.ResolvedIn vars) (hw : c.demand.InWords) (hf : c.demand.IsFinite)
    (hb : c.demand.KeepsBranch) : Demand.Describes vars c.toFields c.demand.tag c.demand := by
  obtain ⟨name, demand⟩ := c
  cases demand with
  | elementary f operand result =>
    exact .elementary (Variable.reference_eq_ok.2 ⟨Fields.string_of_get? rfl, hr.1⟩)
      (Variable.reference_eq_ok.2 ⟨Fields.string_of_get? rfl, hr.2⟩)
  | arithmetic op left right result =>
    exact .arithmetic (Variable.reference_eq_ok.2 ⟨Fields.string_of_get? rfl, hr.1⟩)
      (Variable.reference_eq_ok.2 ⟨Fields.string_of_get? rfl, hr.2.1⟩)
      (Variable.reference_eq_ok.2 ⟨Fields.string_of_get? rfl, hr.2.2⟩)
  | power op base exponent result =>
    have hexponent : Demand.exponentOf (toFields ⟨name, .power op base exponent result⟩) = .ok exponent := by
      simp [Demand.exponentOf, toFields, Demand.toFields, Numeric.ofJson?_toJson hw hf]
    exact .power hexponent (Variable.reference_eq_ok.2 ⟨Fields.string_of_get? rfl, hr.1⟩)
      (Variable.reference_eq_ok.2 ⟨Fields.string_of_get? rfl, hr.2⟩)
  | member array value =>
    exact .member (Variable.arrayReference_eq_ok.2 ⟨Fields.string_of_get? rfl, hr.1⟩)
      (Variable.reference_eq_ok.2 ⟨Fields.string_of_get? rfl, hr.2⟩)
  | element array index value =>
    exact .element (Variable.arrayReference_eq_ok.2 ⟨Fields.string_of_get? rfl, hr.1⟩)
      (Variable.reference_eq_ok.2 ⟨Fields.string_of_get? rfl, hr.2.1⟩)
      (Variable.reference_eq_ok.2 ⟨Fields.string_of_get? rfl, hr.2.2⟩)
  | sorted order array => exact .sorted (Variable.arrayReference_eq_ok.2 ⟨Fields.string_of_get? rfl, hr⟩)
  | distinct array s =>
    have hs : Selection.ofFields (toFields ⟨name, .distinct array s⟩) = .ok s := by
      refine Selection.ofFields_of_toFields (fun key hkey => ?_) hw
      simp only [Selection.keys, List.mem_cons, List.not_mem_nil, or_false] at hkey
      rcases hkey with rfl | rfl | rfl | rfl | rfl | rfl | rfl <;> simp [toFields, Demand.toFields]
    have hv1 : (toFields ⟨name, .distinct array s⟩).string "v1" = .ok array := Fields.string_of_get? rfl
    cases s with
    | whole => exact .distinctWhole hs (Variable.arrayReference_eq_ok.2 ⟨hv1, hr⟩)
    | row size index => exact .distinctPart hs (by simp) (Variable.matrixReference_eq_ok.2 ⟨hv1, hr⟩)
    | column size index => exact .distinctPart hs (by simp) (Variable.matrixReference_eq_ok.2 ⟨hv1, hr⟩)
    | slice size r₀ c₀ r₁ c₁ => exact .distinctPart hs (by simp) (Variable.matrixReference_eq_ok.2 ⟨hv1, hr⟩)
  | relation expr kind =>
    have he : (toFields ⟨name, .relation expr kind⟩).string "expr" = .ok expr := Fields.string_of_get? rfl
    by_cases hk : kind = .integer
    · subst hk
      exact .relation (Fields.string?_of_get?_none rfl) rfl (Fields.string?_of_get?_none rfl) (by simp) he
    · refine .relation (Fields.string?_of_get? (s := kind.tag) ?_) ?_ (Fields.string?_of_get?_none ?_) ?_ he
      · simp [toFields, Demand.toFields, hk]
      · simp [ValueKind.ofSetName_tag]
      · simp [toFields, Demand.toFields, hk]
      · simp
  | conditional condition thenBranch elseBranch kind =>
    exact .conditional (Fields.string?_of_get? rfl) (by simp [ValueKind.ofSetName_tag]) (Fields.string?_of_get? rfl)
      (Fields.string?_of_get? rfl) (Demand.filter_elseBranch hb).symm (Fields.string_of_get? rfl)
      (Fields.string_of_get? rfl)

theorem ofFields_eq_ok {d : Fields} : ofFields vars d = .ok c ↔
    d.string? "name" = .ok c.name ∧ ∃ tag, d.string "type" = .ok tag ∧ Demand.Describes vars d tag c.demand := by
  simp only [ofFields, Except.bind_eq_ok, Except.pure_eq_ok, Demand.ofFields_eq_ok]
  constructor
  · rintro ⟨tag, ht, demand, hd, name, hn, rfl⟩
    exact ⟨hn, tag, ht, hd⟩
  · rintro ⟨hn, tag, ht, hd⟩
    exact ⟨tag, ht, c.demand, hd, c.name, hn, rfl⟩

/-- **A constraint is read back** over variables that resolve its names. -/
theorem ofFields_toFields (hr : c.demand.ResolvedIn vars) (hw : c.demand.InWords) (hf : c.demand.IsFinite)
    (hb : c.demand.KeepsBranch) : ofFields vars c.toFields = .ok c :=
  ofFields_eq_ok.2 ⟨Fields.string?_of_ofString? get?_toFields_name, c.demand.tag, Fields.string_of_get? get?_toFields_type,
    describes_toFields hr hw hf hb⟩

/-- A text can hold the fields of a constraint. -/
theorem wellFormed_toFields (hw : c.demand.InWords) : (Json.obj c.toFields).WellFormed := by
  have hname := Json.WellFormed.ofString? c.name
  obtain ⟨name, demand⟩ := c
  cases demand with
  | power op base exponent result => simp [toFields, Demand.toFields, hname, Numeric.wellFormed_toJson hw]
  | distinct array s => simp [toFields, Demand.toFields, hname, Selection.wellFormed_toFields hw]
  | relation expr kind => by_cases hk : kind = .integer <;> simp [toFields, Demand.toFields, hname, hk]
  | _ => simp [toFields, Demand.toFields, hname]

end Written

end Constraint

/-! ## What was described -/

namespace Demand.Describes

variable {vars : List Variable} {d : Fields} {tag : String} {c : Demand}

/-- **The names of a demand that was read resolve.** -/
theorem resolvedIn (h : Describes vars d tag c) : c.ResolvedIn vars := by
  cases h with
  | elementary hx hz => exact ⟨(Variable.reference_eq_ok.1 hx).2, (Variable.reference_eq_ok.1 hz).2⟩
  | arithmetic hx hy hz =>
    exact ⟨(Variable.reference_eq_ok.1 hx).2, (Variable.reference_eq_ok.1 hy).2, (Variable.reference_eq_ok.1 hz).2⟩
  | power _ hx hz => exact ⟨(Variable.reference_eq_ok.1 hx).2, (Variable.reference_eq_ok.1 hz).2⟩
  | member ha hx => exact ⟨(Variable.arrayReference_eq_ok.1 ha).2, (Variable.reference_eq_ok.1 hx).2⟩
  | element ha hi hx =>
    exact ⟨(Variable.arrayReference_eq_ok.1 ha).2, (Variable.reference_eq_ok.1 hi).2, (Variable.reference_eq_ok.1 hx).2⟩
  | sorted ha => exact (Variable.arrayReference_eq_ok.1 ha).2
  | distinctWhole _ ha => exact (Variable.arrayReference_eq_ok.1 ha).2
  | distinctPart _ hne ha => exact (resolvedIn_distinct_iff hne).2 (Variable.matrixReference_eq_ok.1 ha).2
  | relation => trivial
  | conditional => trivial

theorem inWords (h : Describes vars d tag c) : c.InWords := by
  cases h with
  | power he _ _ =>
    obtain ⟨v, -, hn⟩ := exponentOf_eq_ok.1 he
    exact Numeric.inWords_of_ofJson? hn
  | distinctWhole hs _ => exact Selection.inWords_of_ofFields hs
  | distinctPart hs _ _ => exact Selection.inWords_of_ofFields hs
  | _ => trivial

theorem isFinite (h : Describes vars d tag c) (hd : (Json.obj d).WellFormed) : c.IsFinite := by
  cases h with
  | power he _ _ =>
    obtain ⟨v, hv, hn⟩ := exponentOf_eq_ok.1 he
    exact Numeric.isFinite_of_ofJson? (hd.get? hv) hn
  | _ => trivial

theorem keepsBranch (h : Describes vars d tag c) : c.KeepsBranch := by
  cases h with
  | @conditional _ branch elseBranch _ _ _ _ _ _ _ helse _ _ =>
    cases elseBranch with
    | none => trivial
    | some s =>
      obtain ⟨-, hs⟩ := Option.filter_eq_some_iff.1 helse.symm
      simpa [KeepsBranch] using hs
  | _ => trivial

end Demand.Describes

end SolverClient
