import SolverClient.Proofs.Variable.Document

/-!
# The grammar of variables

A document is accepted as a variable iff it keeps to a grammar of its fields (`Variable.Grammar`), which says what each
of them may be by itself, which of the fields of domains go together (`Domain.Grammar`), and what else an array or a
matrix needs (`Variable.CellsGrammar`). The variable is then the one that the document describes, and for a scalar the
fields of cells do not matter (`Variable.ofFields_grammar`).
-/

namespace SolverClient

/-! ## Single fields -/

/-- The value is a number, whole or not. -/
def Json.IsNumber (v : Json) : Prop := (∃ n, v = .int n) ∨ ∃ x, v = .float x

theorem Numeric.exists_ofJson?_iff {v : Json} : (∃ n, ofJson? v = some n) ↔ v.IsNumber := by
  cases v <;> simp [ofJson?, Json.IsNumber]

namespace Fields

variable {α : Type} {d : Fields} {key : String} {write : α → Json} {standard : α}

theorem not_missing_of_get? {v : Json} (h : d.get? key = some v) (hn : v ≠ .null) : ¬ d.Missing key := by
  rintro (hm | hm) <;> rw [h] at hm <;> cases hm
  exact hn rfl

/-- A field gives some value with a property iff it is missing or holds such a value, if the standard one has it. -/
theorem exists_gives_iff (p : α → Bool) (hstandard : p standard = true) :
    (∃ a, d.Gives key write standard a ∧ p a = true) ↔
      d.Missing key ∨ ∃ a, d.get? key = some (write a) ∧ p a = true := by
  constructor
  · rintro ⟨a, hheld | ⟨hmissing, rfl⟩, ha⟩
    · exact Or.inr ⟨a, hheld, ha⟩
    · exact Or.inl hmissing
  · rintro (hmissing | ⟨a, hheld, ha⟩)
    · exact ⟨standard, Or.inr ⟨hmissing, rfl⟩, hstandard⟩
    · exact ⟨a, Or.inl hheld, ha⟩

end Fields

/-! ## Domains -/

namespace Domain

section Fields

variable (d : Fields)

/-- A bound is there. -/
def HasBounds : Prop := ¬ d.Missing "domlow" ∨ ¬ d.Missing "domup"

/-- Values are there. -/
def HasValues : Prop := ¬ d.Missing "specific_domain"

/-- The text of an expression is there. -/
def HasExpression : Prop := ∃ text, d.get? "expr" = some (.str text)

/-- What the fields of domains may be: one kind of domain at most, both bounds if one of them is there, and numbers. -/
structure Grammar : Prop where
  expression : d.Missing "expr" ∨ HasExpression d
  single : ¬ (HasBounds d ∧ HasValues d) ∧ ¬ (HasBounds d ∧ HasExpression d) ∧ ¬ (HasValues d ∧ HasExpression d)
  bounds : HasBounds d → ∃ l u, d.get? "domlow" = some l ∧ l.IsNumber ∧ d.get? "domup" = some u ∧ u.IsNumber
  values : HasValues d → ∃ items, d.get? "specific_domain" = some (.arr items) ∧ ∀ v ∈ items, v.IsNumber

end Fields

variable {d : Fields} {dom : Domain}

theorem not_hasBounds (hlow : d.Missing "domlow") (hhigh : d.Missing "domup") : ¬ HasBounds d := by
  simp [HasBounds, hlow, hhigh]

theorem not_hasValues (h : d.Missing "specific_domain") : ¬ HasValues d := not_not_intro h

theorem not_hasExpression (h : d.Missing "expr") : ¬ HasExpression d :=
  fun ⟨_, htext⟩ => Fields.not_missing_of_get? htext nofun h

/-- Numbers are read one by one. -/
theorem exists_forall₂_ofJson?_iff {items : List Json} :
    (∃ values, List.Forall₂ (fun v n => Numeric.ofJson? v = some n) items values) ↔ ∀ v ∈ items, v.IsNumber := by
  induction items with
  | nil => simp
  | cons v items ih =>
    rw [List.forall_mem_cons, ← ih, ← Numeric.exists_ofJson?_iff]
    constructor
    · rintro ⟨_, hread⟩
      obtain ⟨n, values, hn, hvalues, rfl⟩ := List.forall₂_cons_left_iff.1 hread
      exact ⟨⟨n, hn⟩, values, hvalues⟩
    · rintro ⟨⟨n, hn⟩, values, hvalues⟩
      exact ⟨n :: values, .cons hn hvalues⟩

/-- Of the domains only an expression has the text of one. -/
theorem Describes.hasExpression_iff (h : Describes d dom) : HasExpression d ↔ ∃ text, dom = .expression text := by
  cases h with
  | unrestricted _ _ _ hexpr => exact iff_of_false (not_hasExpression hexpr) nofun
  | bounds _ _ _ _ _ hexpr => exact iff_of_false (not_hasExpression hexpr) nofun
  | specific _ _ _ _ hexpr => exact iff_of_false (not_hasExpression hexpr) nofun
  | expression htext => exact iff_of_true ⟨_, htext⟩ ⟨_, rfl⟩

/-- What describes a domain keeps to the grammar. -/
theorem Describes.grammar (h : Describes d dom) : Grammar d := by
  cases h with
  | unrestricted hlow hhigh hvalues hexpr =>
    have hb := not_hasBounds hlow hhigh
    have hv := not_hasValues hvalues
    exact ⟨Or.inl hexpr, ⟨fun h => hb h.1, fun h => hb h.1, fun h => hv h.1⟩, fun h => absurd h hb,
      fun h => absurd h hv⟩
  | @bounds l u _ _ hl hu hlow hhigh hvalues hexpr =>
    have hv := not_hasValues hvalues
    have he := not_hasExpression hexpr
    exact ⟨Or.inl hexpr, ⟨fun h => hv h.2, fun h => he h.2, fun h => hv h.1⟩,
      fun _ => ⟨l, u, hl, Numeric.exists_ofJson?_iff.1 ⟨_, hlow⟩, hu, Numeric.exists_ofJson?_iff.1 ⟨_, hhigh⟩⟩,
      fun h => absurd h hv⟩
  | specific hitems hvalues hlow hhigh hexpr =>
    have hb := not_hasBounds hlow hhigh
    have he := not_hasExpression hexpr
    exact ⟨Or.inl hexpr, ⟨fun h => hb h.1, fun h => hb h.1, fun h => he h.2⟩, fun h => absurd h hb,
      fun _ => ⟨_, hitems, exists_forall₂_ofJson?_iff.1 ⟨_, hvalues⟩⟩⟩
  | expression htext hlow hhigh hvalues =>
    have hb := not_hasBounds hlow hhigh
    have hv := not_hasValues hvalues
    exact ⟨Or.inr ⟨_, htext⟩, ⟨fun h => hb h.1, fun h => hb h.1, fun h => hv h.1⟩, fun h => absurd h hb,
      fun h => absurd h hv⟩

/-- **What keeps to the grammar describes a domain.** -/
theorem Grammar.exists_describes (h : Grammar d) : ∃ dom, Describes d dom := by
  obtain ⟨hexpr, ⟨hbv, hbe, hve⟩, hbounds, hvalues⟩ := h
  by_cases hb : HasBounds d
  · obtain ⟨l, u, hl, hlow, hu, hhigh⟩ := hbounds hb
    obtain ⟨low, hlow⟩ := Numeric.exists_ofJson?_iff.2 hlow
    obtain ⟨high, hhigh⟩ := Numeric.exists_ofJson?_iff.2 hhigh
    exact ⟨_, .bounds hl hu hlow hhigh (not_not.1 fun hv => hbv ⟨hb, hv⟩) (hexpr.resolve_right fun he => hbe ⟨hb, he⟩)⟩
  obtain ⟨hlow, hhigh⟩ : d.Missing "domlow" ∧ d.Missing "domup" := by simpa [HasBounds] using hb
  by_cases hv : HasValues d
  · obtain ⟨items, hitems, hnumbers⟩ := hvalues hv
    obtain ⟨values, hread⟩ := exists_forall₂_ofJson?_iff.2 hnumbers
    exact ⟨_, .specific hitems hread hlow hhigh (hexpr.resolve_right fun he => hve ⟨hv, he⟩)⟩
  rcases hexpr with hexpr | ⟨text, htext⟩
  · exact ⟨_, .unrestricted hlow hhigh (not_not.1 hv) hexpr⟩
  · exact ⟨_, .expression htext hlow hhigh (not_not.1 hv)⟩

/-- Documents that agree on the keys of domains say the same domain, or are refused for the same reason. -/
theorem ofFields_congr_of_keys {e : Fields} {isArray : Bool} (h : ∀ key ∈ keys, e.get? key = d.get? key) :
    ofFields isArray e = ofFields isArray d := by
  have hpresent : ∀ key ∈ keys, presentField e key = presentField d key := fun key hkey =>
    congrArg (Option.filter _) (h key hkey)
  have hexpr : e.string? "expr" = d.string? "expr" := Fields.optional_of_get?_eq (h _ (by decide))
  unfold ofFields
  rw [hpresent "domlow" (by decide), hpresent "domup" (by decide), hpresent "specific_domain" (by decide), hexpr]

end Domain

/-! ## Variables -/

namespace Variable

section Fields

variable (d : Fields)

/-- What an array or a matrix needs: a known strategy that is available, if there is one, and a number of cells, or of
rows and columns. A name with the mark of matrices has to carry them. -/
structure CellsGrammar (name : String) (kind : ValueKind) : Prop where
  strategy : d.Missing "brancher_variable" ∨
    ∃ s : VariableStrategy, d.get? "brancher_variable" = some (.str s.tag) ∧ s.availableFor kind = true
  subtype : d.Missing "subtype" ∨ ∃ word, d.get? "subtype" = some (.str word)
  matrix : d.get? "subtype" = some (.str "matrix") → ∃ rows cols : Nat,
    d.get? "rows" = some (.int rows) ∧ rows < Word.bound64 ∧ d.get? "cols" = some (.int cols) ∧ cols < Word.bound64 ∧
      (MatrixName.hasMark name = false ∨ ∃ base, MatrixName.ofText? name = some ⟨rows, cols, base⟩)
  array : d.get? "subtype" ≠ some (.str "matrix") → ∃ n : Nat, d.get? "length" = some (.int n) ∧ n < Word.bound64

/-- What a document of a variable has to be. -/
structure Grammar (name : String) (kind : ValueKind) (isArray : Bool) : Prop where
  named : d.get? "name" = some (.str name)
  type : ∃ tag, d.get? "type" = some (.str tag) ∧ (tag, kind, isArray) ∈ typeTags
  strategy : d.Missing "brancher_value" ∨
    ∃ s : ValueStrategy, d.get? "brancher_value" = some (.str s.tag) ∧ s.availableFor kind = true
  order : d.Missing "branching_order" ∨ ∃ n, d.get? "branching_order" = some (.int n) ∧ Word.isSigned n = true
  domain : Domain.Grammar d
  scalar : Domain.HasExpression d → isArray = false
  cells : isArray = true → CellsGrammar d name kind

end Fields

section Acceptance

variable {d : Fields} {name : String} {kind : ValueKind}

/-- The strategies of a variable are known and available, or the standard ones. -/
theorem exists_valueStrategy_iff : (∃ s : ValueStrategy,
    d.Gives "brancher_value" (fun s : ValueStrategy => .str s.tag) .standard s ∧ s.availableFor kind = true) ↔
      d.Missing "brancher_value" ∨
        ∃ s : ValueStrategy, d.get? "brancher_value" = some (.str s.tag) ∧ s.availableFor kind = true :=
  Fields.exists_gives_iff (fun s : ValueStrategy => s.availableFor kind) (by cases kind <;> rfl)

theorem exists_variableStrategy_iff : (∃ s : VariableStrategy,
    d.Gives "brancher_variable" (fun s : VariableStrategy => .str s.tag) .standard s ∧ s.availableFor kind = true) ↔
      d.Missing "brancher_variable" ∨
        ∃ s : VariableStrategy, d.get? "brancher_variable" = some (.str s.tag) ∧ s.availableFor kind = true :=
  Fields.exists_gives_iff (fun s : VariableStrategy => s.availableFor kind) (by cases kind <;> rfl)

theorem exists_order_iff : (∃ n, d.Gives "branching_order" .int noOrder n ∧ Word.isSigned n = true) ↔
    d.Missing "branching_order" ∨ ∃ n, d.get? "branching_order" = some (.int n) ∧ Word.isSigned n = true :=
  Fields.exists_gives_iff Word.isSigned (by decide)

/-- **What describes the cells of an array keeps to the grammar, and the other way round.** -/
theorem exists_describesCells_iff : (∃ name' l, DescribesCells d name kind name' l) ↔ CellsGrammar d name kind := by
  constructor
  · rintro ⟨name', l, ⟨hs, ha, hsub, hlength, hn⟩ | ⟨hs, ha, hsub, hrows, hr, hcols, hc, hname⟩⟩
    · have hnot : d.get? "subtype" ≠ some (.str "matrix") := by
        intro hmatrix
        rcases hsub with hmissing | ⟨word, hword, hne⟩
        · exact Fields.not_missing_of_get? hmatrix nofun hmissing
        · rw [hword] at hmatrix
          cases hmatrix
          exact hne rfl
      exact ⟨exists_variableStrategy_iff.1 ⟨_, hs, ha⟩, hsub.imp_right fun ⟨word, hword, _⟩ => ⟨word, hword⟩,
        fun hmatrix => absurd hmatrix hnot, fun _ => ⟨_, hlength, hn⟩⟩
    · exact ⟨exists_variableStrategy_iff.1 ⟨_, hs, ha⟩, Or.inr ⟨_, hsub⟩,
        fun _ => ⟨_, _, hrows, hr, hcols, hc, hname.imp And.left And.right⟩, fun hne => absurd hsub hne⟩
  · rintro ⟨hstrategy, hsubtype, hmatrix, harray⟩
    obtain ⟨s, hs, ha⟩ := exists_variableStrategy_iff.2 hstrategy
    by_cases hsub : d.get? "subtype" = some (.str "matrix")
    · obtain ⟨rows, cols, hrows, hr, hcols, hc, hplain | hcarried⟩ := hmatrix hsub
      · exact ⟨_, _, .matrix hs ha hsub hrows hr hcols hc (Or.inl ⟨hplain, rfl⟩)⟩
      · exact ⟨_, _, .matrix hs ha hsub hrows hr hcols hc (Or.inr ⟨rfl, hcarried⟩)⟩
    · obtain ⟨n, hlength, hn⟩ := harray hsub
      refine ⟨_, _, .array hs ha (hsubtype.imp_right fun ⟨word, hword⟩ => ⟨word, hword, ?_⟩) hlength hn⟩
      rintro rfl
      exact hsub hword

/-- **A document describes a variable iff it keeps to the grammar.** -/
theorem exists_describes_iff : (∃ v, Describes d v) ↔ ∃ name kind isArray, Grammar d name kind isArray := by
  constructor
  · rintro ⟨v, hkind, hs, ha, horder, hsigned, hdom, hexpr, name, hname, hlayout⟩
    refine ⟨name, v.kind, !v.layout.isScalar, hname, hkind, exists_valueStrategy_iff.1 ⟨_, hs, ha⟩,
      exists_order_iff.1 ⟨_, horder, hsigned⟩, hdom.grammar, ?_, ?_⟩
    · intro htext
      obtain ⟨text, htext⟩ := hdom.hasExpression_iff.1 htext
      by_contra hscalar
      exact hexpr (by simpa using hscalar) text htext
    · intro harray
      rcases hlayout with ⟨-, hl⟩ | hcells
      · simp [hl, Layout.isScalar] at harray
      · exact exists_describesCells_iff.1 ⟨_, _, hcells⟩
  · rintro ⟨name, kind, isArray, hname, hkind, hstrategy, horder, hdomain, hscalar, hcells⟩
    obtain ⟨s, hs, ha⟩ := exists_valueStrategy_iff.2 hstrategy
    obtain ⟨order, ho, hsigned⟩ := exists_order_iff.2 horder
    obtain ⟨dom, hdom⟩ := hdomain.exists_describes
    cases isArray with
    | false =>
      refine ⟨⟨name, kind, .scalar, dom, s, order⟩, hkind, hs, ha, ho, hsigned, hdom, fun h => ?_, name, hname,
        Or.inl ⟨rfl, rfl⟩⟩
      cases h
    | true =>
      obtain ⟨name', l, hl⟩ := exists_describesCells_iff.2 (hcells rfl)
      have hno : ∀ text, dom ≠ .expression text := by
        intro text htext
        cases hscalar (hdom.hasExpression_iff.2 ⟨text, htext⟩)
      exact ⟨⟨name', kind, l, dom, s, order⟩, by rwa [hl.isScalar_eq_false], hs, ha, ho, hsigned, hdom, fun _ => hno,
        name, hname, Or.inr hl⟩

end Acceptance

/-! ## Scalars -/

/-- The keys of a document that the reader of a scalar looks at. -/
def scalarKeys : List String := ["name", "type", "brancher_value", "branching_order"] ++ Domain.keys

/-- **The fields of cells do not matter for a scalar.** Documents that agree on the other keys say the same scalar, or
are refused for the same reason. -/
theorem ofFields_congr_of_scalar {d e : Fields} {tag : String} {kind : ValueKind}
    (htag : d.get? "type" = some (.str tag)) (hkind : (tag, kind, false) ∈ typeTags)
    (h : ∀ key ∈ scalarKeys, e.get? key = d.get? key) : ofFields e = ofFields d := by
  have hvalue : e.string? "brancher_value" = d.string? "brancher_value" :=
    Fields.optional_of_get?_eq (h _ (by decide))
  have hname : e.string "name" = d.string "name" := Fields.required_of_get?_eq (h _ (by decide))
  have htype : e.string "type" = .ok tag := Fields.string_of_get? ((h _ (by decide)).trans htag)
  have hstrategy : valueStrategyOf kind e = valueStrategyOf kind d := by
    simp only [valueStrategyOf, strategyField, hvalue]
  have horder : e.integer? "branching_order" = d.integer? "branching_order" :=
    Fields.optional_of_get?_eq (h _ (by decide))
  have hdomain : Domain.ofFields false e = Domain.ofFields false d :=
    Domain.ofFields_congr_of_keys fun key hkey => h key (List.mem_append_right _ hkey)
  simp only [ofFields, hname, htype, Fields.string_of_get? htag, ofTypeTag_eq_ok.2 hkind, Except.ok_bind, hstrategy,
    horder, hdomain, Bool.false_eq_true, if_false]

/-! ## The grammar and what is read -/

/-- **Documents are accepted exactly by the grammar.** A document is accepted as a variable iff it keeps to the grammar
for a name, a kind of values and either a scalar or an array, and the variable is the one that it describes. For a
scalar the fields of cells do not matter. -/
theorem ofFields_grammar (d : Fields) :
    ((∃ v, ofFields d = .ok v) ↔ ∃ name kind isArray, Grammar d name kind isArray) ∧
    (∀ v, ofFields d = .ok v ↔ Describes d v) ∧
    ∀ e tag kind, d.get? "type" = some (.str tag) → (tag, kind, false) ∈ typeTags →
      (∀ key ∈ scalarKeys, e.get? key = d.get? key) → ofFields e = ofFields d := by
  refine ⟨?_, fun v => ofFields_eq_ok, fun e tag kind => ofFields_congr_of_scalar⟩
  simp only [ofFields_eq_ok, exists_describes_iff]

/-- A matrix under its base name, with a null and without an order. -/
def plainMatrixDocument : Fields :=
  [("name", .str "grid"), ("type", .str "float_array"), ("subtype", .str "matrix"), ("rows", .int 2), ("cols", .int 3),
    ("brancher_value", .null), ("brancher_variable", .str "VAR_SIZE_MIN"), ("domlow", .int 0), ("domup", .int 9)]

/-- Both bounds and values for one scalar. -/
def severalDomainsDocument : Fields :=
  [("name", .str "x"), ("type", .str "integer"), ("domlow", .int 0), ("domup", .int 9), ("specific_domain", .arr [])]

/-- A scalar that says how many rows it has. -/
def scalarDocument : Fields := [("name", .str "x"), ("rows", .str "many"), ("type", .str "integer")]

theorem ofFields_grammar_documents :
    (∃ name kind isArray, Grammar plainMatrixDocument name kind isArray) ∧
    Describes plainMatrixDocument
      ⟨"MATRIX$2$3$grid", .float, .matrix 2 3 .sizeMin, .bounds (.int 0) (.int 9), .standard, noOrder⟩ ∧
    (¬ ∃ name kind isArray, Grammar severalDomainsDocument name kind isArray) ∧
    ofFields scalarDocument = ofFields [("type", .str "integer"), ("name", .str "x")] := by
  obtain ⟨haccepted, hread, -⟩ := ofFields_grammar plainMatrixDocument
  obtain ⟨hrefused, -, -⟩ := ofFields_grammar severalDomainsDocument
  obtain ⟨-, -, hscalar⟩ := ofFields_grammar [("type", .str "integer"), ("name", .str "x")]
  refine ⟨haccepted.1 ⟨_, rfl⟩, (hread _).1 rfl, fun h => ?_, hscalar _ "integer" .integer rfl (by decide) ?_⟩
  · obtain ⟨v, hv⟩ := hrefused.2 h
    cases hv
  · intro key hkey
    simp only [scalarKeys, Domain.keys, List.cons_append, List.nil_append, List.mem_cons, List.not_mem_nil,
      or_false] at hkey
    rcases hkey with rfl | rfl | rfl | rfl | rfl | rfl | rfl | rfl <;> rfl

end Variable

end SolverClient
