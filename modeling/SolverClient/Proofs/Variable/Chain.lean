import Mathlib.Data.List.Induction
import Mathlib.Data.List.Perm.Basic
import SolverClient.Proofs.Variable.Declaration

/-!
# Declarations made by chains of calls

A declaration starts from a shape and goes through a chain of calls, each to one setter. What it is after the chain can
be told from the calls (`Declaration.run_declare`): of each setting the last value, and of the domains also whether
there is more than one. So the chain alone decides whether a variable is made, and which (`Declaration.Accepted`), and
calls to different setters may change places (`Declaration.build_run_of_filter_eq`). All this together is
`Declaration.build_run`.
-/

namespace SolverClient

namespace Declaration

/-! ## Shapes -/

/-- What is declared before any call. -/
inductive Shape where
  | scalar
  | array (length : Nat)
  | matrix (rows cols : Nat)

namespace Shape

/-- The declaration of a name in the shape. -/
def declare (kind : ValueKind) (name : String) : Shape → Declaration
  | scalar => .scalar kind name
  | array length => .array kind name length
  | matrix rows cols => .matrix kind name rows cols

/-- The layout of a variable of the shape. -/
def layout (s : VariableStrategy) : Shape → Layout
  | scalar => .scalar
  | array length => .array length s
  | matrix rows cols => .matrix rows cols s

/-- No size is zero. -/
def HasCells : Shape → Prop
  | scalar => True
  | array length => 0 < length
  | matrix rows cols => 0 < rows ∧ 0 < cols

/-- A matrix may have a name without the mark, or one that carries its very rows and columns; all else any name. -/
def Fits (name : String) : Shape → Prop
  | matrix rows cols => MatrixName.hasMark name = false ∨ ∃ base, MatrixName.ofText? name = some ⟨rows, cols, base⟩
  | _ => True

/-- The name of a variable of the shape. That of a matrix gets the mark and the shape, unless it has the mark. -/
def identifier (name : String) : Shape → String
  | matrix rows cols => if MatrixName.hasMark name then name else MatrixName.text ⟨rows, cols, name⟩
  | _ => name

variable {shape : Shape} {s s' : VariableStrategy} {d : Declaration} {name : String}

theorem withStrategy_layout : (shape.layout s).withStrategy s' = shape.layout s' := by
  cases shape <;> rfl

theorem strategy?_layout_eq_some : (shape.layout s).strategy? = some s' ↔ shape ≠ .scalar ∧ s = s' := by
  cases shape <;> simp [layout, Layout.strategy?]

/-- A matrix has a name iff the name that is given fits it. -/
theorem matrixName_eq_ok {rows cols : Nat} : MatrixName.identifier d.name rows cols = .ok name ↔
    (matrix rows cols).Fits d.name ∧ name = (matrix rows cols).identifier d.name := by
  rw [MatrixName.identifier_eq_ok]
  unfold Fits identifier
  cases hm : MatrixName.hasMark d.name with
  | false => simp [MatrixName.ofText?_of_not_hasMark hm]
  | true => simp [and_comm]

/-- **When a declaration of the shape has a name for its variable, and which.** -/
theorem identifier_eq_ok (hl : d.layout = shape.layout s) :
    d.identifier = .ok name ↔ shape.HasCells ∧ shape.Fits d.name ∧ name = shape.identifier d.name := by
  unfold Declaration.identifier
  rw [hl]
  cases shape with
  | scalar => simp [layout, HasCells, Fits, identifier, eq_comm]
  | array length =>
    by_cases hlength : length = 0
    · simp [layout, HasCells, hlength]
    · have hpos : 0 < length := Nat.pos_of_ne_zero hlength
      simp [layout, HasCells, Fits, identifier, hlength, hpos, eq_comm]
  | matrix rows cols =>
    by_cases hempty : rows = 0 ∨ cols = 0
    · have hcells : ¬ (0 < rows ∧ 0 < cols) := by omega
      simp only [layout, HasCells, hempty, hcells, if_true, false_and, reduceCtorEq]
    · have hcells : 0 < rows ∧ 0 < cols := by omega
      simp only [layout, HasCells, hempty, hcells, and_self, if_false, true_and, matrixName_eq_ok]

end Shape

/-! ## Refusals -/

/-- If it fails, it refuses a request of the caller. -/
def RefusesOnly {α : Type} (x : Except ModelError α) : Prop := ∀ e, x = .error e → ∃ fault, e = .request fault

section Refusals

variable {α β : Type} {x y : Except ModelError α} {f : α → Except ModelError β}

theorem refusesOnly_ok {a : α} : RefusesOnly (.ok a) := fun _ h => by cases h

theorem refusesOnly_error {fault : RequestFault} : RefusesOnly (.error (.request fault) : Except ModelError α) := by
  rintro _ ⟨⟩
  exact ⟨fault, rfl⟩

theorem RefusesOnly.bind (hx : RefusesOnly x) (hf : ∀ a, RefusesOnly (f a)) : RefusesOnly (x >>= f) := by
  intro e h
  cases x with
  | ok a => exact hf a e h
  | error e' =>
    obtain ⟨fault, rfl⟩ := hx e' rfl
    exact refusesOnly_error e h

theorem RefusesOnly.ite {c : Prop} [Decidable c] (hx : RefusesOnly x) (hy : RefusesOnly y) :
    RefusesOnly (if c then x else y) := by
  split
  · exact hx
  · exact hy

theorem refusesOnly_matrixName (name : String) (rows cols : Nat) :
    RefusesOnly (MatrixName.identifier name rows cols) := by
  unfold MatrixName.identifier
  refine .ite ?_ refusesOnly_ok
  split
  · exact .ite refusesOnly_ok refusesOnly_error
  · exact refusesOnly_error

theorem refusesOnly_identifier (d : Declaration) : RefusesOnly d.identifier := by
  unfold identifier
  split
  · exact refusesOnly_ok
  · exact .ite refusesOnly_error refusesOnly_ok
  · exact .ite refusesOnly_error (refusesOnly_matrixName _ _ _)

/-- **A declaration fails only as a refused request**, whatever it asks for. -/
theorem refusesOnly_build (d : Declaration) : RefusesOnly d.build := by
  unfold build
  refine .ite refusesOnly_error (.ite refusesOnly_error (.ite refusesOnly_error ?_))
  refine d.refusesOnly_identifier.bind fun name => ?_
  split
  · exact refusesOnly_error
  · exact .ite refusesOnly_error refusesOnly_ok
  · exact refusesOnly_ok

end Refusals

/-! ## Calls -/

/-- What a declaration can be asked for. -/
inductive Setter where
  | bounds
  | values
  | expression
  | valueStrategy
  | variableStrategy
  | order
  deriving DecidableEq

/-- A call to a setter. -/
inductive Setting where
  | bounds (low high : Numeric)
  | values (values : List Numeric)
  | expression (e : Expression)
  | valueStrategy (s : ValueStrategy)
  | variableStrategy (s : VariableStrategy)
  | order (n : Int)

namespace Setting

/-- The setter that is called. -/
def setter : Setting → Setter
  | bounds .. => .bounds
  | values _ => .values
  | expression _ => .expression
  | valueStrategy _ => .valueStrategy
  | variableStrategy _ => .variableStrategy
  | order _ => .order

/-- The domain that is asked for. Three setters ask for one. -/
def domain? : Setting → Option Domain
  | bounds low high => some (.bounds low high)
  | values vs => some (.specific vs)
  | expression e => some (.expression e.text)
  | _ => none

/-- The way to pick values that is asked for. -/
def valueStrategy? : Setting → Option ValueStrategy
  | valueStrategy s => some s
  | _ => none

/-- The way to pick the next cell that is asked for. -/
def variableStrategy? : Setting → Option VariableStrategy
  | variableStrategy s => some s
  | _ => none

/-- The place in the order of branching that is asked for. -/
def order? : Setting → Option Int
  | order n => some n
  | _ => none

end Setting

/-- The declaration after a call. -/
def apply (d : Declaration) : Setting → Declaration
  | .bounds low high => d.withBounds low high
  | .values vs => d.withValues vs
  | .expression e => d.withExpression e
  | .valueStrategy s => d.withValueStrategy s
  | .variableStrategy s => d.withVariableStrategy s
  | .order n => d.withOrder n

/-- The declaration after a chain of calls. -/
def run (d : Declaration) (calls : List Setting) : Declaration := calls.foldl apply d

/-- The domains that a chain asks for. -/
def domains (calls : List Setting) : List Domain := calls.filterMap Setting.domain?

/-- What a chain asks for last, or the standard if it does not ask. -/
def last {α : Type} (asked? : Setting → Option α) (standard : α) (calls : List Setting) : α :=
  (calls.filterMap asked?).getLast?.getD standard

/-- The way to pick values after a chain. -/
def lastValueStrategy : List Setting → ValueStrategy := last Setting.valueStrategy? .random

/-- The way to pick the next cell after a chain. -/
def lastVariableStrategy : List Setting → VariableStrategy := last Setting.variableStrategy? .random

/-- The place in the order of branching after a chain. -/
def lastOrder : List Setting → Int := last Setting.order? Variable.noOrder

section Chains

variable {kind : ValueKind} {name : String} {shape : Shape} {calls calls' : List Setting} {call : Setting}
  {d : Declaration}

theorem run_append_singleton : run d (calls ++ [call]) = (run d calls).apply call := by
  rw [run, List.foldl_append]
  rfl

/-- One more call is what was asked for last, if it asks. -/
theorem last_append_singleton {α : Type} {asked? : Setting → Option α} {standard : α} :
    last asked? standard (calls ++ [call]) = (asked? call).getD (last asked? standard calls) := by
  unfold last
  rw [List.filterMap_append, List.filterMap_cons, List.filterMap_nil]
  cases asked? call with
  | none => simp
  | some a => simp

theorem length_domains_append_singleton :
    (domains (calls ++ [call])).length = (domains calls).length + call.domain?.toList.length := by
  unfold domains
  rw [List.filterMap_append, List.filterMap_cons, List.filterMap_nil, List.length_append]
  cases call.domain? <;> rfl

theorem ne_unrestricted_of_mem_domains {domain : Domain} (h : domain ∈ domains calls) : domain ≠ .unrestricted := by
  obtain ⟨call, -, hcall⟩ := List.mem_filterMap.1 h
  cases call <;> cases hcall <;> simp

/-- Asking for a domain after a chain of calls is a conflict iff the chain asked for one. -/
theorem withDomain_of_domains {domain : Domain} (hd : d.domain = last Setting.domain? .unrestricted calls)
    (hc : d.conflicting = decide (1 < (domains calls).length)) :
    d.withDomain domain = { d with domain, conflicting := decide (1 < (domains calls).length + 1) } := by
  have hdomain : d.domain = (domains calls).getLast?.getD .unrestricted := hd
  cases hlast : (domains calls).getLast? with
  | none =>
    have hnil : domains calls = [] := List.getLast?_eq_none_iff.1 hlast
    have hfree : d.domain = .unrestricted := by rw [hdomain, hlast, Option.getD_none]
    have hcalm : d.conflicting = false := by simpa [hnil] using hc
    simp [withDomain, hfree, hcalm, hnil]
  | some asked =>
    have hmem := List.mem_of_getLast? hlast
    have hpos : 1 < (domains calls).length + 1 := Nat.succ_lt_succ (List.length_pos_of_mem hmem)
    have htaken : d.domain = asked := by rw [hdomain, hlast, Option.getD_some]
    unfold withDomain
    rw [htaken]
    cases asked with
    | unrestricted => exact absurd rfl (ne_unrestricted_of_mem_domains hmem)
    | bounds => simp [hpos]
    | specific => simp [hpos]
    | expression => simp [hpos]

/-- **What a declaration is after a chain of calls.** -/
theorem run_declare (kind : ValueKind) (name : String) (shape : Shape) (calls : List Setting) :
    run (shape.declare kind name) calls =
      { name, kind
        layout := shape.layout (lastVariableStrategy calls)
        domain := last Setting.domain? .unrestricted calls
        conflicting := decide (1 < (domains calls).length)
        valueStrategy := lastValueStrategy calls
        order := lastOrder calls } := by
  induction calls using List.reverseRecOn with
  | nil => cases shape <;> rfl
  | append_singleton calls call ih =>
    rw [run_append_singleton, ih]
    simp only [lastVariableStrategy, lastValueStrategy, lastOrder, last_append_singleton,
      length_domains_append_singleton]
    cases call with
    | bounds low high => exact withDomain_of_domains rfl rfl
    | values vs => exact withDomain_of_domains rfl rfl
    | expression e => exact withDomain_of_domains rfl rfl
    | valueStrategy s => rfl
    | variableStrategy s =>
      simp only [apply, withVariableStrategy, Shape.withStrategy_layout]
      rfl
    | order n => rfl

/-! ## Outcomes -/

/-- What the name, the shape and a chain of calls have to keep to. -/
structure Accepted (kind : ValueKind) (name : String) (shape : Shape) (calls : List Setting) : Prop where
  named : name ≠ ""
  domains : (domains calls).length ≤ 1
  valueStrategy : (lastValueStrategy calls).availableFor kind = true
  cells : shape ≠ .scalar →
    (lastVariableStrategy calls).availableFor kind = true ∧ ∀ e, Setting.expression e ∉ calls
  hasCells : shape.HasCells
  fits : shape.Fits name

/-- The variable that is declared by a chain of calls. -/
def outcome (kind : ValueKind) (name : String) (shape : Shape) (calls : List Setting) : Variable where
  name := shape.identifier name
  kind := kind
  layout := shape.layout (lastVariableStrategy calls)
  domain := (domains calls).head?.getD .unrestricted
  valueStrategy := lastValueStrategy calls
  order := lastOrder calls

/-- The only domain that a chain asks for is the last one and the first one. -/
theorem last_domain?_eq (h : (domains calls).length ≤ 1) :
    last Setting.domain? .unrestricted calls = (domains calls).head?.getD .unrestricted := by
  have hlast : last Setting.domain? .unrestricted calls = (domains calls).getLast?.getD .unrestricted := rfl
  rw [hlast]
  match domains calls, h with
  | [], _ => rfl
  | [_], _ => rfl

/-- Where one domain at most is asked for, an expression is asked for iff it is the domain. -/
theorem last_domain?_ne_expression_iff (h : (domains calls).length ≤ 1) :
    (∀ text, last Setting.domain? .unrestricted calls ≠ .expression text) ↔ ∀ e, Setting.expression e ∉ calls := by
  rw [last_domain?_eq h]
  constructor
  · intro hno e he
    have hmem : Domain.expression e.text ∈ domains calls := List.mem_filterMap.2 ⟨_, he, rfl⟩
    obtain ⟨domain, hdomain⟩ := List.length_eq_one_iff.1 (Nat.le_antisymm h (List.length_pos_of_mem hmem))
    rw [hdomain, List.mem_singleton] at hmem
    exact hno e.text (by rw [hdomain, ← hmem]; rfl)
  · intro hno text htext
    cases hhead : (domains calls).head? with
    | none =>
      rw [hhead] at htext
      cases htext
    | some domain =>
      rw [hhead, Option.getD_some] at htext
      obtain ⟨call, hcall, hasked⟩ := List.mem_filterMap.1 (List.mem_of_head? hhead)
      subst htext
      cases call with
      | expression e => exact hno e hcall
      | _ => cases hasked

/-- **Which chains of calls make a variable, and which variable.** -/
theorem build_run_eq_ok {v : Variable} :
    (run (shape.declare kind name) calls).build = .ok v ↔
      Accepted kind name shape calls ∧ outcome kind name shape calls = v := by
  rw [run_declare, build_eq_ok]
  constructor
  · rintro ⟨hname, hcalm, hvalue, hcells, _, hi, rfl⟩
    obtain ⟨hsizes, hfits, rfl⟩ := (Shape.identifier_eq_ok rfl).1 hi
    have hdomains : (domains calls).length ≤ 1 := Nat.not_lt.1 (of_decide_eq_false hcalm)
    refine ⟨⟨hname, hdomains, hvalue, fun hshape => ?_, hsizes, hfits⟩, ?_⟩
    · obtain ⟨hvariable, hexpression⟩ := hcells _ (Shape.strategy?_layout_eq_some.2 ⟨hshape, rfl⟩)
      exact ⟨hvariable, (last_domain?_ne_expression_iff hdomains).1 hexpression⟩
    · rw [outcome, last_domain?_eq hdomains]
  · rintro ⟨h, rfl⟩
    refine ⟨h.named, decide_eq_false (Nat.not_lt.2 h.domains), h.valueStrategy, fun s hs => ?_, _,
      (Shape.identifier_eq_ok rfl).2 ⟨h.hasCells, h.fits, rfl⟩, ?_⟩
    · obtain ⟨hshape, rfl⟩ := Shape.strategy?_layout_eq_some.1 hs
      obtain ⟨hvariable, hexpression⟩ := h.cells hshape
      exact ⟨hvariable, (last_domain?_ne_expression_iff h.domains).2 hexpression⟩
    · rw [outcome, last_domain?_eq h.domains]

/-- A declaration in conflict is refused, whatever else it asks for. -/
theorem build_of_conflicting (h : d.conflicting = true) :
    d.build = .error (.request (if d.name = "" then .emptyName else .severalDomains d.name)) := by
  unfold build
  by_cases hn : d.name = ""
  · simp [hn]
  · simp [hn, h]

/-! ## Order of calls -/

/-- Calls that are the same for each setter are the same calls in some order. -/
theorem perm_of_filter_eq
    (h : ∀ setter, (calls.filter fun call => call.setter = setter) = calls'.filter fun call => call.setter = setter) :
    calls.Perm calls' := by
  classical
  rw [List.perm_iff_count]
  intro call
  have hcount : ∀ l : List Setting, l.count call = (l.filter fun c => c.setter = call.setter).count call := by
    intro l
    rw [List.count_filter (by simp)]
  rw [hcount, hcount calls', h]

/-- What one setter is asked for last can be told from the calls to it. -/
theorem last_eq_of_filter {α : Type} {asked? : Setting → Option α} {standard : α} (setter : Setter)
    (hasked : ∀ call, call.setter ≠ setter → asked? call = none) :
    last asked? standard calls = last asked? standard (calls.filter fun call => call.setter = setter) := by
  unfold last
  rw [List.filterMap_filter]
  congr 2
  refine List.filterMap_congr fun call _ => ?_
  by_cases hc : call.setter = setter
  · simp [hc]
  · simp [hc, hasked call hc]

/-- The domains are the same if they come in another order and are one at most. -/
theorem domains_eq_of_perm (hp : calls.Perm calls') (h : (domains calls).length ≤ 1) :
    domains calls = domains calls' := by
  have hdomains : (domains calls).Perm (domains calls') := hp.filterMap _
  match hl : domains calls, h with
  | [], _ => exact (List.nil_perm.1 (hl ▸ hdomains)).symm
  | [_], _ => exact List.singleton_perm.1 (hl ▸ hdomains)

/-- **Calls to different setters may change places.** -/
theorem build_run_of_filter_eq
    (h : ∀ setter, (calls.filter fun call => call.setter = setter) = calls'.filter fun call => call.setter = setter) :
    (run (shape.declare kind name) calls).build = (run (shape.declare kind name) calls').build := by
  have hp := perm_of_filter_eq h
  have hlength : (domains calls).length = (domains calls').length := (hp.filterMap _).length_eq
  rw [run_declare, run_declare]
  by_cases hconflict : 1 < (domains calls).length
  · -- the domains may have changed places, but there is more than one
    rw [build_of_conflicting (decide_eq_true hconflict), build_of_conflicting (decide_eq_true (hlength ▸ hconflict))]
  · have hone := Nat.not_lt.1 hconflict
    have hdomain : last Setting.domain? .unrestricted calls = last Setting.domain? .unrestricted calls' := by
      rw [last_domain?_eq hone, last_domain?_eq (hlength ▸ hone), domains_eq_of_perm hp hone]
    have hlast {α : Type} {asked? : Setting → Option α} {standard : α} (setter : Setter)
        (hasked : ∀ call, call.setter ≠ setter → asked? call = none) :
        last asked? standard calls = last asked? standard calls' := by
      rw [last_eq_of_filter setter hasked, h setter, ← last_eq_of_filter setter hasked]
    have hvalue : lastValueStrategy calls = lastValueStrategy calls' :=
      hlast .valueStrategy fun call hne => by
        cases call with
        | valueStrategy => exact absurd rfl hne
        | _ => rfl
    have hvariable : lastVariableStrategy calls = lastVariableStrategy calls' :=
      hlast .variableStrategy fun call hne => by
        cases call with
        | variableStrategy => exact absurd rfl hne
        | _ => rfl
    have horder : lastOrder calls = lastOrder calls' :=
      hlast .order fun call hne => by
        cases call with
        | order => exact absurd rfl hne
        | _ => rfl
    rw [hdomain, hvalue, hvariable, horder, hlength]

/-- **What comes of any chain of calls.** A variable is made iff the name, the shape and the calls keep to the rules.
It has the name, with the mark and the shape if it is a matrix and its name had no mark, the only domain that was asked
for, and of each other setting the last value. All else is refused as a request of the caller. Calls to different
setters may change places, and the same comes of them. -/
theorem build_run (kind : ValueKind) (name : String) (shape : Shape) (calls : List Setting) :
    ((∃ v, (run (shape.declare kind name) calls).build = .ok v) ↔ Accepted kind name shape calls) ∧
    (∀ v, (run (shape.declare kind name) calls).build = .ok v → v = outcome kind name shape calls) ∧
    (∀ e, (run (shape.declare kind name) calls).build = .error e →
      ∃ fault, e = .request fault ∧ e.message = "Configuration error: " ++ fault.sentence) ∧
    ∀ calls' : List Setting,
      (∀ setter, (calls.filter fun call => call.setter = setter) = calls'.filter fun call => call.setter = setter) →
        (run (shape.declare kind name) calls').build = (run (shape.declare kind name) calls).build := by
  refine ⟨?_, fun v hv => (build_run_eq_ok.1 hv).2.symm, fun e he => ?_, fun calls' h => ?_⟩
  · simp only [build_run_eq_ok, exists_and_left, exists_eq', and_true]
  · obtain ⟨fault, rfl⟩ := refusesOnly_build _ e he
    exact ⟨fault, rfl, rfl⟩
  · exact (build_run_of_filter_eq h).symm

/-- Calls for a matrix, with settings that come again. -/
def gridCalls : List Setting :=
  [.variableStrategy .noPreference, .order 3, .bounds (.int 0) (.int 9), .variableStrategy .sizeMin, .order 5]

/-- The same calls with those to different setters in other places. -/
def gridCallsMoved : List Setting :=
  [.order 3, .order 5, .variableStrategy .noPreference, .variableStrategy .sizeMin, .bounds (.int 0) (.int 9)]

theorem accepted_gridCalls : Accepted .integer "MATRIX$+2$3$grid" (.matrix 2 3) gridCalls where
  named := by decide
  domains := by decide
  valueStrategy := by decide
  cells := fun _ => ⟨by decide, fun e he => by simp [gridCalls] at he⟩
  hasCells := by exact ⟨by decide, by decide⟩
  fits := Or.inr ⟨"grid", by rfl⟩

theorem build_run_gridCalls :
    (run (Shape.declare .integer "MATRIX$+2$3$grid" (.matrix 2 3)) gridCallsMoved).build =
      .ok ⟨"MATRIX$+2$3$grid", .integer, .matrix 2 3 .sizeMin, .bounds (.int 0) (.int 9), .random, 5⟩ ∧
    ∃ fault, (run (Shape.declare .integer "x" .scalar) [.bounds (.int 0) (.int 9), .values []]).build =
      .error (.request fault) := by
  obtain ⟨hmade, hwhich, -, hmoved⟩ := build_run .integer "MATRIX$+2$3$grid" (.matrix 2 3) gridCalls
  obtain ⟨-, -, hrefused, -⟩ := build_run .integer "x" .scalar [.bounds (.int 0) (.int 9), .values []]
  constructor
  · obtain ⟨v, hv⟩ := hmade.2 accepted_gridCalls
    rw [hmoved gridCallsMoved (by intro setter; cases setter <;> rfl), hv, hwhich v hv]
    rfl
  · obtain ⟨fault, he, -⟩ := hrefused _ rfl
    exact ⟨fault, congrArg Except.error he⟩

end Chains

end Declaration

end SolverClient
