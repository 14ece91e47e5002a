import SolverClient.Proofs.MatrixName
import SolverClient.Proofs.Variable.Domain

/-!
# Variables are read back

A variable is **coherent** (`Variable.Coherent`) if its strategies are available for its kind, only a scalar is defined
by an expression, and the name of a matrix carries its shape. A coherent variable is read back from its fields if its
integers are words and its doubles finite (`Variable.ofFields_toFields`).

An object **describes** a variable (`Variable.Describes`) if its fields hold those of the variable, or are missing where
the variable has its standard; the reader accepts just such objects (`Variable.ofFields_eq_ok`). Every variable that is
read is therefore coherent (`Variable.coherent_of_ofFields`), its integers are words (`Variable.inWords_of_ofFields`)
and, if a text can hold the document, its doubles are finite (`Variable.isFinite_of_ofFields`).
-/

namespace SolverClient

namespace Variable

/-- The strategies are available, only a scalar is an expression, and the name of a matrix carries its shape. -/
structure Coherent (v : Variable) : Prop where
  valueStrategy : v.valueStrategy.availableFor v.kind = true
  variableStrategy : ∀ s, v.layout.strategy? = some s → s.availableFor v.kind = true
  noExpression : v.layout.isScalar = false → ∀ text, v.domain ≠ .expression text
  identifier : ∀ rows cols s, v.layout = .matrix rows cols s → MatrixName.identifier v.name rows cols = .ok v.name

/-- All integers of a variable are words. -/
structure InWords (v : Variable) : Prop where
  order : Word.isSigned v.order = true
  rows : v.layout.grid.1 < Word.bound64
  cols : v.layout.grid.2 < Word.bound64
  numbers : ∀ n ∈ v.domain.numbers, n.InWords

/-- All doubles of a variable are finite. -/
def IsFinite (v : Variable) : Prop := ∀ n ∈ v.domain.numbers, n.isFinite = true

/-! ## The fields of a variable -/

section Written

variable (v : Variable)

theorem get?_toFields_name : v.toFields.get? "name" = some (.str v.name) := by simp [toFields]

theorem get?_toFields_type : v.toFields.get? "type" = some (.str v.typeTag) := by simp [toFields]

theorem get?_toFields_valueStrategy : v.toFields.get? "brancher_value" = some (.str v.valueStrategy.tag) := by
  cases h : v.layout <;> simp [toFields, h, Layout.strategy?]

theorem get?_toFields_order : v.toFields.get? "branching_order" = some (.int v.order) := by
  cases h : v.layout <;> simp [toFields, h, Layout.strategy?]

theorem get?_toFields_domain {key : String} (hk : key ∈ Domain.keys) :
    v.toFields.get? key = OrderedMap.get? v.domain.toFields key := by
  simp only [Domain.keys, List.mem_cons, List.not_mem_nil, or_false] at hk
  rcases hk with rfl | rfl | rfl | rfl <;> cases h : v.layout <;> simp [toFields, h, Layout.strategy?]

theorem get?_toFields_variableStrategy {s : VariableStrategy} (h : v.layout.strategy? = some s) :
    v.toFields.get? "brancher_variable" = some (.str s.tag) := by
  simp [toFields, h]

theorem get?_toFields_length {n : Nat} {s : VariableStrategy} (h : v.layout = .array n s) :
    v.toFields.get? "length" = some (.int n) := by
  simp [toFields, h, Layout.strategy?, size, Layout.size, Layout.grid]

theorem get?_toFields_subtype :
    v.toFields.get? "subtype" = if v.layout.isMatrix then some (.str "matrix") else none := by
  have hd : OrderedMap.get? v.domain.toFields "subtype" = none := v.domain.get?_toFields_eq_none (by simp [Domain.keys])
  cases h : v.layout <;> simp [toFields, h, Layout.strategy?, Layout.isMatrix, hd]

theorem get?_toFields_grid {rows cols : Nat} {s : VariableStrategy} (h : v.layout = .matrix rows cols s) :
    v.toFields.get? "rows" = some (.int rows) ∧ v.toFields.get? "cols" = some (.int cols) := by
  have hr : OrderedMap.get? v.domain.toFields "rows" = none := v.domain.get?_toFields_eq_none (by simp [Domain.keys])
  have hc : OrderedMap.get? v.domain.toFields "cols" = none := v.domain.get?_toFields_eq_none (by simp [Domain.keys])
  simp [toFields, h, Layout.strategy?, hr, hc]

end Written

/-! ## Reading what was written -/

section ReadBack

variable {d : Fields}

theorem strategyField_of_get? {α : Type} {ofTag? : String → Option α} {standard s : α} {key tag : String}
    (h : d.get? key = some (.str tag)) (hs : ofTag? tag = some s) : strategyField ofTag? standard d key = .ok s := by
  simp [strategyField, Fields.string?_of_get? h, hs]

theorem ofTypeTag_typeTag (v : Variable) : ofTypeTag v.typeTag = .ok (v.kind, !v.layout.isScalar) := by
  simp only [ofTypeTag, typeTag]
  cases v.layout.isScalar <;> cases v.kind <;> decide +kernel

variable {v : Variable}

theorem valueStrategyOf_toFields (h : v.valueStrategy.availableFor v.kind = true) :
    valueStrategyOf v.kind v.toFields = .ok v.valueStrategy := by
  simp [valueStrategyOf, strategyField_of_get? v.get?_toFields_valueStrategy (ValueStrategy.ofTag?_tag _), h]

theorem variableStrategyOf_toFields {s : VariableStrategy} (hs : v.layout.strategy? = some s)
    (h : s.availableFor v.kind = true) : variableStrategyOf v.kind v.toFields = .ok s := by
  simp [variableStrategyOf, strategyField_of_get? (v.get?_toFields_variableStrategy hs) (VariableStrategy.ofTag?_tag s),
    h]

/-- The layout of an array or a matrix is read back, with the name. -/
theorem arrayLayoutOf_toFields (hv : v.Coherent) (hw : v.InWords) (hs : v.layout.isScalar = false) :
    arrayLayoutOf v.name v.kind v.toFields = .ok (v.name, v.layout) := by
  have hrows := hw.rows
  have hcols := hw.cols
  cases hl : v.layout with
  | scalar => rw [hl] at hs; cases hs
  | array n s =>
    rw [hl] at hrows hcols
    have hstrategy : v.layout.strategy? = some s := by rw [hl]; rfl
    have hsub : v.toFields.string? "subtype" = .ok none :=
      Fields.string?_of_get?_none (by rw [get?_toFields_subtype, hl]; rfl)
    have hlength := Fields.count_of_get? (v.get?_toFields_length hl) hcols
    simp [arrayLayoutOf, variableStrategyOf_toFields hstrategy (hv.variableStrategy s hstrategy), hsub, hlength]
  | matrix rows cols s =>
    rw [hl] at hrows hcols
    have hstrategy : v.layout.strategy? = some s := by rw [hl]; rfl
    have hsub : v.toFields.string? "subtype" = .ok (some "matrix") :=
      Fields.string?_of_get? (by rw [get?_toFields_subtype, hl]; rfl)
    obtain ⟨hr, hc⟩ := v.get?_toFields_grid hl
    have hr := Fields.count_of_get? hr hrows
    have hc := Fields.count_of_get? hc hcols
    simp [arrayLayoutOf, variableStrategyOf_toFields hstrategy (hv.variableStrategy s hstrategy), hsub, hr, hc,
      hv.identifier rows cols s hl]

/-- **What is read from the fields of a coherent variable**: the variable, with what is kept of its domain. -/
theorem ofFields_eq_map_kept (hv : v.Coherent) (hw : v.InWords) :
    ofFields v.toFields = v.domain.kept.map fun dom => { v with domain := dom } := by
  have hdomain : Domain.ofFields (!v.layout.isScalar) v.toFields = v.domain.kept :=
    Domain.ofFields_eq_kept (fun _ hk => v.get?_toFields_domain hk) hw.numbers
      fun h => hv.noExpression (by simpa using h)
  simp only [ofFields, Fields.string_of_get? v.get?_toFields_name, Fields.string_of_get? v.get?_toFields_type,
    ofTypeTag_typeTag, valueStrategyOf_toFields hv.valueStrategy, Fields.integer?_of_get? v.get?_toFields_order hw.order,
    hdomain, Except.ok_bind, Except.pure_eq, Option.getD_some]
  cases v.domain.kept with
  | error e => rfl
  | ok dom =>
    cases hs : v.layout.isScalar with
    | true =>
      have hl : v.layout = .scalar := by
        cases h : v.layout <;> simp [h, Layout.isScalar] at hs ⊢
      simp [← hl, Except.map]
    | false => simp [arrayLayoutOf_toFields hv hw hs, Except.map]

/-- **A coherent variable is read back.** -/
theorem ofFields_toFields (hv : v.Coherent) (hw : v.InWords) (hf : v.IsFinite) : ofFields v.toFields = .ok v := by
  rw [ofFields_eq_map_kept hv hw, Domain.kept_of_isFinite hf]
  rfl

end ReadBack

/-- A text can hold the fields of a variable if its number of cells is a word. -/
theorem wellFormed_toFields {v : Variable} (hw : v.InWords) (hsize : v.size < Word.bound64) :
    (Json.obj v.toFields).WellFormed := by
  have hdomain := Domain.wellFormed_toFields hw.numbers
  have horder := Json.WellFormed.int_of_isSigned hw.order
  have hlength := Json.WellFormed.int_of_lt hsize
  have hrows := hw.rows
  have hcols := hw.cols
  cases hl : v.layout with
  | scalar => simp [toFields, hl, Layout.strategy?, hdomain, horder]
  | array n s => simp [toFields, hl, Layout.strategy?, hdomain, horder, hlength]
  | matrix rows cols s =>
    rw [hl] at hrows hcols
    have hr : (Json.int rows).WellFormed := .int_of_lt hrows
    have hc : (Json.int cols).WellFormed := .int_of_lt hcols
    simp [toFields, hl, Layout.strategy?, hdomain, horder, hlength, hr, hc]

/-! ## Descriptions -/

/-- The object holds the cells of an array under its own name, or of a matrix. The name of a matrix is written from a
name without the mark, or it is a name that carries the shape itself. -/
inductive DescribesCells (d : Fields) (name : String) (kind : ValueKind) : String → Layout → Prop
  | array {n : Nat} {s : VariableStrategy}
      (hs : d.Gives "brancher_variable" (fun s : VariableStrategy => .str s.tag) .standard s)
      (ha : s.availableFor kind = true)
      (hsub : d.Missing "subtype" ∨ ∃ word, d.get? "subtype" = some (.str word) ∧ word ≠ "matrix")
      (hlength : d.get? "length" = some (.int n)) (hn : n < Word.bound64) : DescribesCells d name kind name (.array n s)
  | matrix {rows cols : Nat} {s : VariableStrategy} {name' : String}
      (hs : d.Gives "brancher_variable" (fun s : VariableStrategy => .str s.tag) .standard s)
      (ha : s.availableFor kind = true) (hsub : d.get? "subtype" = some (.str "matrix"))
      (hrows : d.get? "rows" = some (.int rows)) (hr : rows < Word.bound64)
      (hcols : d.get? "cols" = some (.int cols)) (hc : cols < Word.bound64)
      (hname : (MatrixName.hasMark name = false ∧ name' = MatrixName.text ⟨rows, cols, name⟩) ∨
        (name' = name ∧ ∃ base, MatrixName.ofText? name = some ⟨rows, cols, base⟩)) :
      DescribesCells d name kind name' (.matrix rows cols s)

/-- The object holds the variable. What is missing has its standard, and a scalar is held by any object that has its
fields, whatever the fields of cells are. -/
structure Describes (d : Fields) (v : Variable) : Prop where
  type : ∃ tag, d.get? "type" = some (.str tag) ∧ (tag, v.kind, !v.layout.isScalar) ∈ typeTags
  valueStrategy : d.Gives "brancher_value" (fun s : ValueStrategy => .str s.tag) .standard v.valueStrategy
  available : v.valueStrategy.availableFor v.kind = true
  order : d.Gives "branching_order" .int noOrder v.order
  signed : Word.isSigned v.order = true
  domain : Domain.Describes d v.domain
  noExpression : v.layout.isScalar = false → ∀ text, v.domain ≠ .expression text
  layout : ∃ name, d.get? "name" = some (.str name) ∧
    ((v.name = name ∧ v.layout = .scalar) ∨ DescribesCells d name v.kind v.name v.layout)

section Reading

variable {d : Fields} {v : Variable}

/-- The kind of a type is the one in the list of types. -/
theorem ofTypeTag_eq_ok {tag : String} {t : ValueKind × Bool} : ofTypeTag tag = .ok t ↔ (tag, t) ∈ typeTags := by
  have hlookup : ofTypeTag tag = .ok t ↔ typeTags.lookup tag = some t := by
    unfold ofTypeTag
    cases typeTags.lookup tag <;> simp
  exact hlookup.trans (OrderedMap.mem_iff_get? (m := typeTags) (by decide)).symm

/-- A strategy is read under its word. -/
theorem strategyField_eq_ok {α : Type} {ofTag? : String → Option α} {tag : α → String} {standard s : α} {key : String}
    (htag : ∀ word s, ofTag? word = some s ↔ word = tag s) :
    strategyField ofTag? standard d key = .ok s ↔ d.Gives key (fun s => .str (tag s)) standard s := by
  simp only [strategyField, Except.bind_eq_ok, Fields.string?_eq_ok]
  constructor
  · rintro ⟨o, ⟨rfl, hmissing⟩ | ⟨word, hword, rfl⟩, h⟩
    · cases h
      exact Or.inr ⟨hmissing, rfl⟩
    · simp only at h
      split at h
      · rename_i t ht
        cases h
        exact Or.inl (by rw [hword, (htag word s).1 ht])
      · cases h
  · rintro (hword | ⟨hmissing, rfl⟩)
    · exact ⟨_, Or.inr ⟨_, hword, rfl⟩, by simp only [(htag _ s).2 rfl]⟩
    · exact ⟨_, Or.inl ⟨rfl, hmissing⟩, rfl⟩

theorem valueStrategyOf_eq_ok {kind : ValueKind} {s : ValueStrategy} : valueStrategyOf kind d = .ok s ↔
    d.Gives "brancher_value" (fun s : ValueStrategy => .str s.tag) .standard s ∧ s.availableFor kind = true := by
  rw [valueStrategyOf, Except.check_eq_ok, strategyField_eq_ok ValueStrategy.ofTag?_eq_some_iff]

theorem variableStrategyOf_eq_ok {kind : ValueKind} {s : VariableStrategy} : variableStrategyOf kind d = .ok s ↔
    d.Gives "brancher_variable" (fun s : VariableStrategy => .str s.tag) .standard s ∧ s.availableFor kind = true := by
  rw [variableStrategyOf, Except.check_eq_ok, strategyField_eq_ok VariableStrategy.ofTag?_eq_some_iff]

/-- **The reader of cells accepts just what holds them.** -/
theorem arrayLayoutOf_eq_ok {name name' : String} {kind : ValueKind} {l : Layout} :
    arrayLayoutOf name kind d = .ok (name', l) ↔ DescribesCells d name kind name' l := by
  simp only [arrayLayoutOf, Except.bind_eq_ok, variableStrategyOf_eq_ok]
  constructor
  · rintro ⟨s, ⟨hs, ha⟩, sub, hsub, h⟩
    split at h
    · rename_i hmatrix
      simp only [Except.bind_eq_ok, Except.pure_eq_ok, Prod.mk.injEq, Fields.count_eq_ok,
        MatrixName.identifier_eq_ok] at h
      obtain ⟨rows, ⟨hrows, hr⟩, cols, ⟨hcols, hc⟩, name'', hname, rfl, rfl⟩ := h
      exact .matrix hs ha (Fields.get?_of_string? (hmatrix ▸ hsub)) hrows hr hcols hc hname
    · rename_i hne
      simp only [Except.bind_eq_ok, Except.pure_eq_ok, Prod.mk.injEq, Fields.count_eq_ok] at h
      obtain ⟨n, ⟨hlength, hn⟩, rfl, rfl⟩ := h
      refine .array hs ha ?_ hlength hn
      rcases Fields.string?_eq_ok.1 hsub with ⟨-, hmissing⟩ | ⟨word, hword, rfl⟩
      · exact Or.inl hmissing
      · exact Or.inr ⟨word, hword, fun hw => hne (congrArg some hw)⟩
  · rintro (⟨hs, ha, hsub, hlength, hn⟩ | ⟨hs, ha, hsub, hrows, hr, hcols, hc, hname⟩)
    · obtain ⟨sub, hsub, hne⟩ : ∃ sub, d.string? "subtype" = .ok sub ∧ sub ≠ some "matrix" := by
        rcases hsub with hmissing | ⟨word, hword, hne⟩
        · exact ⟨none, Fields.string?_of_missing hmissing, nofun⟩
        · exact ⟨some word, Fields.string?_of_get? hword, fun h => hne (Option.some.inj h)⟩
      exact ⟨_, ⟨hs, ha⟩, sub, hsub, by simp [hne, Fields.count_eq_ok.2 ⟨hlength, hn⟩]⟩
    · refine ⟨_, ⟨hs, ha⟩, _, Fields.string?_of_get? hsub, ?_⟩
      simp [Fields.count_eq_ok.2 ⟨hrows, hr⟩, Fields.count_eq_ok.2 ⟨hcols, hc⟩, MatrixName.identifier_eq_ok.2 hname]

/-- What is described as cells is no scalar. -/
theorem DescribesCells.isScalar_eq_false {name name' : String} {kind : ValueKind} {l : Layout}
    (h : DescribesCells d name kind name' l) : l.isScalar = false := by
  cases h <;> rfl

/-- What is read was described. -/
theorem describes_of_ofFields (h : ofFields d = .ok v) : Describes d v := by
  simp only [ofFields, Except.bind_eq_ok, valueStrategyOf_eq_ok, Fields.string_eq_ok, ofTypeTag_eq_ok,
    Domain.ofFields_eq_ok] at h
  obtain ⟨name, hname, tag, htag, ⟨kind, isArray⟩, hkind, s, ⟨hs, ha⟩, order, ho, dom, ⟨hdom, harray⟩, h⟩ := h
  obtain ⟨horder, hsigned⟩ : d.Gives "branching_order" .int noOrder (order.getD noOrder) ∧
      Word.isSigned (order.getD noOrder) = true := by
    rcases Fields.integer?_eq_ok.1 ho with ⟨rfl, hmissing⟩ | ⟨n, hn, hsigned, rfl⟩
    · exact ⟨Or.inr ⟨hmissing, rfl⟩, by decide⟩
    · exact ⟨Or.inl hn, hsigned⟩
  cases isArray with
  | false =>
    cases h
    exact ⟨⟨tag, htag, hkind⟩, hs, ha, horder, hsigned, hdom, nofun, name, hname, Or.inl ⟨rfl, rfl⟩⟩
  | true =>
    simp only [if_true, Except.bind_eq_ok, Except.pure_eq_ok] at h
    obtain ⟨⟨name', l⟩, hl, rfl⟩ := h
    have hcells := arrayLayoutOf_eq_ok.1 hl
    have hscalar := hcells.isScalar_eq_false
    exact ⟨⟨tag, htag, by rwa [hscalar]⟩, hs, ha, horder, hsigned, hdom, fun _ => harray rfl, name, hname,
      Or.inr hcells⟩

/-- What is described is read. -/
theorem ofFields_of_describes (h : Describes d v) : ofFields d = .ok v := by
  obtain ⟨⟨tag, htag, hkind⟩, hs, ha, horder, hsigned, hdom, harray, name, hname, hlayout⟩ := h
  obtain ⟨order, ho, hget⟩ : ∃ order, d.integer? "branching_order" = .ok order ∧ order.getD noOrder = v.order := by
    rcases horder with hn | ⟨hmissing, hstandard⟩
    · exact ⟨_, Fields.integer?_of_get? hn hsigned, rfl⟩
    · exact ⟨none, Fields.integer?_eq_ok.2 (Or.inl ⟨rfl, hmissing⟩), hstandard.symm⟩
  have hread : Domain.ofFields (!v.layout.isScalar) d = .ok v.domain :=
    Domain.ofFields_eq_ok.2 ⟨hdom, fun hb => harray (by simpa using hb)⟩
  simp only [ofFields, Fields.string_of_get? hname, Fields.string_of_get? htag, ofTypeTag_eq_ok.2 hkind,
    valueStrategyOf_eq_ok.2 ⟨hs, ha⟩, ho, hget, hread, Except.ok_bind, Except.pure_eq]
  rcases hlayout with ⟨rfl, hl⟩ | hcells
  · have hscalar : v.layout.isScalar = true := by rw [hl]; rfl
    simp [hscalar, ← hl]
  · simp [hcells.isScalar_eq_false, arrayLayoutOf_eq_ok.2 hcells]

/-- **The reader accepts an object iff it describes a variable, and then reads that.** -/
theorem ofFields_eq_ok : ofFields d = .ok v ↔ Describes d v := ⟨describes_of_ofFields, ofFields_of_describes⟩

/-! ## What was read -/

/-- Cells have a strategy that is available, and the name of a matrix carries its shape. -/
theorem DescribesCells.coherent {name name' : String} {kind : ValueKind} {l : Layout}
    (h : DescribesCells d name kind name' l) : (∀ s, l.strategy? = some s → s.availableFor kind = true) ∧
      ∀ rows cols s, l = .matrix rows cols s → MatrixName.identifier name' rows cols = .ok name' := by
  cases h with
  | array _ ha => exact ⟨fun s hs => Option.some.inj hs ▸ ha, nofun⟩
  | matrix _ ha _ _ hr _ hc hname =>
    refine ⟨fun s hs => Option.some.inj hs ▸ ha, fun rows cols s hl => ?_⟩
    cases hl
    exact MatrixName.identifier_idem hr hc (MatrixName.identifier_eq_ok.2 hname)

theorem DescribesCells.grid_lt {name name' : String} {kind : ValueKind} {l : Layout}
    (h : DescribesCells d name kind name' l) : l.grid.1 < Word.bound64 ∧ l.grid.2 < Word.bound64 := by
  cases h with
  | array _ _ _ _ hn => exact ⟨show 1 < Word.bound64 by decide, hn⟩
  | matrix _ _ _ _ hr _ hc _ => exact ⟨hr, hc⟩

/-- **Whatever is read is coherent.** -/
theorem coherent_of_ofFields (h : ofFields d = .ok v) : v.Coherent := by
  obtain ⟨-, -, ha, -, -, -, hexpr, name, -, ⟨-, hl⟩ | hcells⟩ := describes_of_ofFields h
  · exact ⟨ha, by simp [hl, Layout.strategy?], hexpr, by simp [hl]⟩
  · exact ⟨ha, hcells.coherent.1, hexpr, hcells.coherent.2⟩

theorem inWords_of_ofFields (h : ofFields d = .ok v) : v.InWords := by
  obtain ⟨-, -, -, -, hsigned, hdom, -, name, -, hlayout⟩ := describes_of_ofFields h
  have hnumbers : ∀ n ∈ v.domain.numbers, n.InWords := by
    intro n hn
    obtain ⟨_, hread, -⟩ := hdom.exists_of_mem_numbers hn
    exact Numeric.inWords_of_ofJson? hread
  rcases hlayout with ⟨-, hl⟩ | hcells
  · exact ⟨hsigned, by rw [hl]; decide, by rw [hl]; decide, hnumbers⟩
  · exact ⟨hsigned, hcells.grid_lt.1, hcells.grid_lt.2, hnumbers⟩

theorem isFinite_of_ofFields (hd : (Json.obj d).WellFormed) (h : ofFields d = .ok v) : v.IsFinite := by
  intro n hn
  obtain ⟨w, hread, hw⟩ := (describes_of_ofFields h).domain.exists_of_mem_numbers hn
  exact Numeric.isFinite_of_ofJson? (hw hd) hread

end Reading

end Variable

end SolverClient
