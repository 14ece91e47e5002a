import SolverClient.Constraint.Build
import SolverClient.Proofs.Expression.Chain
import SolverClient.Proofs.MatrixName

/-!
# Operators outside of parentheses

An expression that the library assembles (`Expression.Assembled`) starts from names and numbers and goes on by
operators, cells, aggregates, views and the expressions of constraints. Its text is balanced, and the operators that
stand outside of all parentheses are products and conjunctions, but for one case: a conditional with two branches
stands for a disjunction without parentheses of its own, and wherever it is exposed, that disjunction is
(`Expression.Assembled.outer`). Operands in which none is exposed can be joined by any operator: beside it there are
then products and conjunctions only (`Expression.outside_of_assembled`).
-/

namespace SolverClient

/-- The operator is a word of the text, outside of all parentheses. -/
def BinaryOperator.Outside (op : BinaryOperator) (s : String) : Prop := op.sign.toList ∈ Text.words s.toList

instance (op : BinaryOperator) (s : String) : Decidable (op.Outside s) :=
  inferInstanceAs (Decidable (op.sign.toList ∈ Text.words s.toList))

/-! ## Words that are no operators -/

namespace Text

/-- A plain text that is not the sign of an operator. -/
def Atom (s : List Char) : Prop := Plain s ∧ ∀ op : BinaryOperator, s ≠ op.sign.toList

/-- The characters that are in no sign of an operator, as far as they are in the words below. -/
def isNoSign (c : Char) : Bool := isDigit c || c.isAlpha || c == '.' || c == '['

/-- A plain text with a character that no sign has. -/
def Worded (s : List Char) : Prop := Plain s ∧ s.any isNoSign = true

instance (s : List Char) : Decidable (Worded s) := inferInstanceAs (Decidable (Plain s ∧ s.any isNoSign = true))

variable {s t : List Char} {c : Char}

theorem Worded.atom (h : Worded s) : Atom s := by
  have hsigns : ∀ op : BinaryOperator, op.sign.toList.any isNoSign = false := by
    intro op
    cases op <;> decide
  refine ⟨h.1, fun op heq => ?_⟩
  have hno := h.2
  rw [heq, hsigns op] at hno
  cases hno

theorem Worded.append_left (hs : Worded s) (ht : Plain t) : Worded (t ++ s) :=
  ⟨ht.append hs.1, by rw [List.any_append, hs.2, Bool.or_true]⟩

theorem Worded.append_right (hs : Worded s) (ht : Plain t) : Worded (s ++ t) :=
  ⟨hs.1.append ht, by rw [List.any_append, hs.2, Bool.true_or]⟩

theorem plain_of_isDigit (h : ∀ c ∈ s, isDigit c = true) : Plain s := by
  intro c hc
  have hdigit := h c hc
  refine ⟨?_, ?_, ?_⟩ <;> rintro rfl <;> exact absurd hdigit (by decide)

theorem worded_toDigits (n : Nat) : Worded (Nat.toDigits 10 n) := by
  refine ⟨plain_of_isDigit fun _ => isDigit_of_mem_toDigits, ?_⟩
  cases hdigits : Nat.toDigits 10 n with
  | nil => exact absurd hdigits Nat.toDigits_ne_nil
  | cons c cs =>
    have hc : c ∈ Nat.toDigits 10 n := by rw [hdigits]; exact List.mem_cons_self
    simp [isNoSign, isDigit_of_mem_toDigits hc]

theorem worded_toString_nat (n : Nat) : Worded (toString n).toList := by
  rw [toList_toString]
  exact worded_toDigits n

theorem worded_toString_int (n : Int) : Worded (toString n).toList := by
  cases n with
  | ofNat m => exact worded_toString_nat m
  | negSucc m =>
    show Worded ("-" ++ toString (m + 1)).toList
    rw [String.toList_append]
    exact (worded_toString_nat _).append_left (by decide)

end Text

namespace Decimal

open Text

/-- The shortest decimal is made of digits. -/
theorem plain_shortest (tie : Tie) (x : Binary) : Plain (shortest tie x).digits := by
  refine plain_of_isDigit fun c hc => ?_
  simp only [shortest, List.mem_reverse] at hc
  exact isDigit_of_mem_toDigits (List.mem_reverse.1 ((List.dropWhile_suffix _).subset hc))

theorem plain_replicate_zero (n : Nat) : Plain (List.replicate n '0') :=
  plain_of_isDigit fun c hc => by rw [List.eq_of_mem_replicate hc]; rfl

theorem worded_plainText {d : Digits} (h : Plain d.digits) : Worded (plainText d) := by
  have hpoint : Worded ['.'] := by decide
  simp only [plainText]
  split
  · exact ((hpoint.append_left (t := ['0']) (by decide)).append_right (plain_replicate_zero _)).append_right h
  split
  · exact (hpoint.append_right (t := ['0']) (by decide)).append_left (h.append (plain_replicate_zero _))
  · have htake : Plain (d.digits.take (d.exponent.toNat + 1)) := fun c hc => h c (List.mem_of_mem_take hc)
    have hdrop : Plain (d.digits.drop (d.exponent.toNat + 1)) := fun c hc => h c (List.mem_of_mem_drop hc)
    exact (hpoint.append_right hdrop).append_left htake

theorem worded_scientificText {f : Format} {d : Digits} (h : Plain d.digits) : Worded (scientificText f d) := by
  have hmark : Worded ['e'] := by decide
  have hexponent := (worded_toString_int d.exponent).1
  have hsign : Plain (if (f.plusSign && 0 ≤ d.exponent) = true then ['+'] else []) := by split <;> decide
  simp only [scientificText]
  refine ((hmark.append_right hsign).append_left ?_).append_right hexponent
  split
  · decide
  · rename_i heq
    rwa [heq] at h
  · rename_i c rest _ heq
    rw [heq] at h
    have hpoint : Plain [c, '.'] := by
      intro c' hc'
      rcases List.mem_cons.1 hc' with rfl | hc'
      · exact h c' List.mem_cons_self
      · rw [List.mem_singleton.1 hc']
        decide
    exact hpoint.append fun c' hc' => h c' (List.mem_cons_of_mem _ hc')

theorem worded_magnitudeText (f : Format) (bits : UInt64) : Worded (magnitudeText f bits) := by
  have hshortest := plain_shortest f.tie (Binary.ofBits bits)
  simp only [magnitudeText]
  split
  · decide
  split
  · exact worded_plainText hshortest
  · exact worded_scientificText hshortest

theorem worded_finiteText (f : Format) (x : Float) : Worded (finiteText f x).toList := by
  rw [finiteText, String.toList_ofList]
  refine (worded_magnitudeText f x.toBits).append_left ?_
  split <;> decide

/-- A double in an expression is a word that is no operator, and so are the values that are no numbers. -/
theorem worded_expressionText (x : Float) : Worded (expressionText x).toList := by
  unfold expressionText
  split
  · decide
  split
  · split <;> decide
  · exact worded_finiteText _ x

end Decimal

/-! ## What stands outside of parentheses -/

namespace Text

/-- The operators outside of parentheses are links, and disjunctions where one is exposed. -/
structure Outer (s : List Char) (exposed : Bool) : Prop where
  balanced : Balanced s
  weakest : ∀ op : BinaryOperator, op.sign.toList ∈ words s → op.isLink = true ∨ (op = .or ∧ exposed = true)
  shown : exposed = true → BinaryOperator.or.sign.toList ∈ words s

/-- Two operands with the sign of an operator between them. -/
def joined (op : BinaryOperator) (s t : List Char) : List Char := s ++ ' ' :: (op.sign.toList ++ ' ' :: t)

variable {s t name : List Char} {exposed exposed' : Bool} {op op' : BinaryOperator}

theorem Balanced.joined (hs : Balanced s) (op : BinaryOperator) (ht : Balanced t) : Balanced (joined op s t) :=
  hs.append (.cons (by decide) (by decide) (op.plain_sign.balanced.append (.cons (by decide) (by decide) ht)))

theorem words_joined (hs : Balanced s) (op : BinaryOperator) (t : List Char) :
    words (joined op s t) = words s ++ op.sign.toList :: words t := by
  rw [joined, words_append_blank hs, words_cons op.plain_sign.solid]

theorem mem_words_joined (hs : Balanced s) :
    op'.sign.toList ∈ words (joined op s t) ↔
      op'.sign.toList ∈ words s ∨ op' = op ∨ op'.sign.toList ∈ words t := by
  have hsign : op'.sign.toList = op.sign.toList ↔ op' = op :=
    ⟨BinaryOperator.sign_injective, fun h => by rw [h]⟩
  rw [words_joined hs, List.mem_append, List.mem_cons, hsign]

theorem not_mem_words_enclose (hname : Plain name) (hs : Balanced s) (op : BinaryOperator) :
    op.sign.toList ∉ words (enclose name s) := by
  rw [(Solid.enclose hname hs).2, List.mem_singleton]
  exact op.plain_sign.ne_enclose name s

namespace Outer

theorem of_atom (h : Atom s) : Outer s false where
  balanced := h.1.balanced
  weakest op hop := by
    rw [h.1.solid.2, List.mem_singleton] at hop
    exact absurd hop.symm (h.2 op)
  shown h := by cases h

theorem enclose (hname : Plain name) (hs : Balanced s) : Outer (enclose name s) false where
  balanced := (Solid.enclose hname hs).1
  weakest op hop := absurd hop (not_mem_words_enclose hname hs op)
  shown h := by cases h

/-- Beside an operator between operands there are links, and what one of the operands exposes. -/
theorem weakest_joined (hs : Outer s exposed) (ht : Outer t exposed')
    (h : op'.sign.toList ∈ words (Text.joined op s t)) :
    op' = op ∨ op'.isLink = true ∨ (op' = .or ∧ (exposed || exposed') = true) := by
  rcases (mem_words_joined hs.balanced).1 h with h | rfl | h
  · exact .inr ((hs.weakest op' h).imp_right fun ⟨hor, he⟩ => ⟨hor, by rw [he, Bool.true_or]⟩)
  · exact .inl rfl
  · exact .inr ((ht.weakest op' h).imp_right fun ⟨hor, he⟩ => ⟨hor, by rw [he, Bool.or_true]⟩)

/-- Linked operands expose what one of them does. -/
theorem joined (hs : Outer s exposed) (hop : op.isLink = true) (ht : Outer t exposed') :
    Outer (joined op s t) (exposed || exposed') where
  balanced := hs.balanced.joined op ht.balanced
  weakest op' hmem := by
    rcases hs.weakest_joined ht hmem with rfl | h
    · exact .inl hop
    · exact h
  shown h := by
    rw [mem_words_joined hs.balanced]
    rcases Bool.or_eq_true_iff.1 h with he | he
    · exact .inl (hs.shown he)
    · exact .inr (.inr (ht.shown he))

/-- Two branches in parentheses expose the disjunction between them. -/
theorem disjunction (hs : Balanced s) (ht : Balanced t) :
    Outer (Text.joined .or (Text.enclose [] s) (Text.enclose [] t)) true where
  balanced := (Balanced.nil.enclose hs).joined .or (Balanced.nil.enclose ht)
  weakest op hmem := by
    rcases (mem_words_joined (Balanced.nil.enclose hs)).1 hmem with h | rfl | h
    · exact absurd h (not_mem_words_enclose plain_nil hs op)
    · exact .inr ⟨rfl, rfl⟩
    · exact absurd h (not_mem_words_enclose plain_nil ht op)
  shown _ := by
    rw [mem_words_joined (Balanced.nil.enclose hs)]
    exact .inr (.inl rfl)

/-- A disjunction is outside of all parentheses iff one is exposed. -/
theorem mem_words_or_iff (h : Outer s exposed) : BinaryOperator.or.sign.toList ∈ words s ↔ exposed = true := by
  refine ⟨fun hmem => ?_, h.shown⟩
  rcases h.weakest .or hmem with hlink | ⟨-, he⟩
  · cases hlink
  · exact he

end Outer

end Text

/-! ## Assembled expressions -/

/-- A text that is one word without parentheses and no operator: a name, or a number. -/
def IsAtom (s : String) : Prop := Text.Atom s.toList

/-- What can be assembled from names and numbers. The flag says whether a conditional with two branches is exposed:
links and conditionals with one branch pass it on from what they are made of, and so does a relation; all other
operators cover it with their parentheses. -/
inductive Expression.Assembled : (e : Expression) → (exposed : Bool) → Prop
  | name {s : String} (h : IsAtom s) : Assembled (.leaf s) false
  | integer (n : Int) : Assembled (.ofInt n) false
  | double (x : Float) : Assembled (.ofFloat x) false
  | truth (b : Bool) : Assembled (.ofBool b) false
  | variable {v : Variable} (h : IsAtom v.name) : Assembled v.expression false
  | cellAt {v : Variable} (h : IsAtom v.name) (index : Nat) : Assembled (v.cellAt index) false
  | cell {v : Variable} (h : IsAtom v.name) (row col : Nat) : Assembled (v.cell row col) false
  | aggregate {v : Variable} {e : Expression} (h : IsAtom v.name) (he : e ∈ [v.sum, v.min, v.max]) : Assembled e false
  | view {w : View} {e : Expression} (h : IsAtom w.array.name) (he : e ∈ [w.expression, w.sum, w.min, w.max]) :
      Assembled e false
  | unary (op : UnaryOperator) {e : Expression} {exposed : Bool} (he : Assembled e exposed) :
      Assembled (.unary op e) false
  | binary (op : BinaryOperator) {l r : Expression} {exposed exposed' : Bool} (hl : Assembled l exposed)
      (hr : Assembled r exposed') : Assembled (.binary op l r) (op.isLink && (exposed || exposed'))
  | relation {e e' : Expression} {exposed : Bool} {c : Constraint} {kind : ValueKind} (he : Assembled e exposed)
      (hc : c.demand = ((Constraint.relation e).withKind kind).demand) (he' : c.expression? = some e') :
      Assembled e' exposed
  | ifThen {e t e' : Expression} {exposed exposed' : Bool} {c : Constraint} {kind : ValueKind}
      (he : Assembled e exposed) (ht : Assembled t exposed')
      (hc : c.demand = ((Constraint.ifThen e t).withKind kind).demand)
      (he' : c.expression? = some e') : Assembled e' (exposed || exposed')
  | ifThenElse {e t f e' : Expression} {exposed exposed' exposed'' : Bool} {c : Constraint} {kind : ValueKind}
      (he : Assembled e exposed) (ht : Assembled t exposed') (hf : Assembled f exposed'')
      (hc : c.demand = ((Constraint.ifThenElse e t f).withKind kind).demand) (he' : c.expression? = some e') :
      Assembled e' true

namespace Text

open Expression

variable {s t : String} {exposed exposed' : Bool}

theorem outer_ofInt (n : Int) : Outer (ofInt n).text.toList false := .of_atom (worded_toString_int n).atom

theorem outer_ofFloat (x : Float) : Outer (ofFloat x).text.toList false :=
  .of_atom (Decimal.worded_expressionText x).atom

theorem outer_ofBool (b : Bool) : Outer (ofBool b).text.toList false := by
  refine .of_atom (Worded.atom ?_)
  cases b <;> decide

theorem outer_applied {function argument : String} (hf : Plain function.toList) (ha : Balanced argument.toList) :
    Outer (applied function argument).text.toList false := by
  have htext : (applied function argument).text.toList = enclose function.toList argument.toList := by
    simp [applied, text, enclose]
  rw [htext]
  exact .enclose hf ha

theorem worded_index (n : Nat) : Worded (View.index n).toList := by
  have hopen : Worded ['['] := by decide
  have hcount := (worded_toString_nat n).1
  have htext : (View.index n).toList = ['['] ++ (toString n).toList ++ [']'] := by simp [View.index]
  rw [htext]
  exact (hopen.append_right hcount).append_right (by decide)

theorem worded_cellAt {v : Variable} (h : Plain v.name.toList) (index : Nat) : Worded (v.cellAt index).text.toList := by
  have htext : (v.cellAt index).text.toList = v.name.toList ++ (View.index index).toList := by
    simp [Variable.cellAt, text, View.index]
  rw [htext]
  exact (worded_index index).append_left h

theorem worded_viewText {w : View} (h : Plain w.array.name.toList) : Worded w.text.toList := by
  have hindex : ∀ n, Plain (View.index n).toList := fun n => (worded_index n).1
  simp only [View.text, String.toList_append]
  refine (((worded_index _).append_left h).append_right (hindex _)).append_right ?_
  split <;> simp only [String.toList_append]
  · exact Plain.append (by decide) (hindex _)
  · exact Plain.append (by decide) (hindex _)
  · exact (((Plain.append (by decide) (hindex _)).append (hindex _)).append (hindex _)).append (hindex _)

theorem outer_unary (op : UnaryOperator) (h : Balanced s.toList) : Outer (op.enclose s).toList false := by
  cases op with
  | neg =>
    have htext : (UnaryOperator.neg.enclose s).toList = joined .mul (enclose [] ['-', '1']) (enclose [] s.toList) := by
      simp [UnaryOperator.enclose, joined, enclose, BinaryOperator.sign]
    rw [htext]
    exact (Outer.enclose (by decide) (Plain.balanced (by decide))).joined rfl (.enclose (by decide) h)
  | abs =>
    have htext : (UnaryOperator.abs.enclose s).toList = enclose ['a', 'b', 's'] s.toList := by
      simp [UnaryOperator.enclose, enclose]
    rw [htext]
    exact .enclose (by decide) h
  | not =>
    have htext : (UnaryOperator.not.enclose s).toList = enclose ['!'] s.toList := by
      simp [UnaryOperator.enclose, enclose]
    rw [htext]
    exact .enclose (by decide) h

theorem outer_join (op : BinaryOperator) (hs : Outer s.toList exposed) (ht : Outer t.toList exposed') :
    Outer (op.join s t).toList (op.isLink && (exposed || exposed')) := by
  cases henclosure : op.enclosure with
  | bare =>
    have hlink := BinaryOperator.enclosure_eq_bare_iff.1 henclosure
    have htext : (op.join s t).toList = joined op s.toList t.toList := by
      simp [BinaryOperator.join, henclosure, joined]
    rw [htext, hlink]
    exact hs.joined hlink ht
  | whole =>
    have hlink : op.isLink = false := BinaryOperator.isLink_eq_false_iff.2 (by simp [henclosure])
    have htext : (op.join s t).toList = enclose [] (joined op s.toList t.toList) := by
      simp [BinaryOperator.join, henclosure, joined, enclose]
    rw [htext, hlink]
    exact .enclose (by decide) (hs.balanced.joined op ht.balanced)
  | parts =>
    have hlink : op.isLink = false := BinaryOperator.isLink_eq_false_iff.2 (by simp [henclosure])
    have htext : (op.join s t).toList = enclose [] (joined op (enclose [] s.toList) (enclose [] t.toList)) := by
      simp [BinaryOperator.join, henclosure, joined, enclose]
    have hparts := (Balanced.nil.enclose hs.balanced).joined op (Balanced.nil.enclose ht.balanced)
    rw [htext, hlink]
    exact .enclose plain_nil hparts

theorem outer_compose_none (hs : Outer s.toList exposed) (ht : Outer t.toList exposed') :
    Outer (Demand.compose s t none).toList (exposed || exposed') := by
  have htext : (Demand.compose s t none).toList = joined .and s.toList t.toList := by
    simp [Demand.compose, joined, BinaryOperator.sign]
  rw [htext]
  exact hs.joined rfl ht

theorem outer_compose_some {u : String} (hs : Balanced s.toList) (ht : Balanced t.toList) (hu : Balanced u.toList) :
    Outer (Demand.compose s t (some u)).toList true := by
  have htext : (Demand.compose s t (some u)).toList = joined .or (enclose [] (joined .and s.toList t.toList))
      (enclose [] (joined .and (enclose ['!'] s.toList) u.toList)) := by
    simp [Demand.compose, joined, enclose, BinaryOperator.sign]
  have hnot : Balanced (enclose ['!'] s.toList) := .enclose (Plain.balanced (by decide)) hs
  rw [htext]
  exact .disjunction (hs.joined .and ht) (hnot.joined .and hu)

end Text

namespace Expression

variable {e e' : Expression} {exposed exposed' : Bool}

/-- **What an assembled expression exposes.** -/
theorem Assembled.outer (h : e.Assembled exposed) : Text.Outer e.text.toList exposed := by
  induction h with
  | name h => exact .of_atom h
  | integer n => exact Text.outer_ofInt n
  | double x => exact Text.outer_ofFloat x
  | truth b => exact Text.outer_ofBool b
  | «variable» h => exact .of_atom h
  | cellAt h index => exact .of_atom (Text.worded_cellAt h.1 index).atom
  | cell h row col => exact .of_atom (Text.worded_cellAt h.1 _).atom
  | aggregate h he =>
    simp only [List.mem_cons, List.not_mem_nil, or_false] at he
    rcases he with rfl | rfl | rfl <;> exact Text.outer_applied (by decide) h.1.balanced
  | view h he =>
    have hview := Text.worded_viewText h.1
    simp only [List.mem_cons, List.not_mem_nil, or_false] at he
    rcases he with rfl | rfl | rfl | rfl
    · exact .of_atom hview.atom
    all_goals exact Text.outer_applied (by decide) hview.1.balanced
  | unary op _ ih => exact Text.outer_unary op ih.balanced
  | binary op _ _ ihl ihr => exact Text.outer_join op ihl ihr
  -- What a constraint stands for is decided by its demand, whatever its name is.
  | relation _ hc he' ih =>
    rw [Constraint.expression?, hc] at he'
    cases he'
    exact ih
  | ifThen _ _ hc he' ihe iht =>
    rw [Constraint.expression?, hc] at he'
    cases he'
    exact Text.outer_compose_none ihe iht
  | ifThenElse _ _ _ hc he' ihe iht ihf =>
    rw [Constraint.expression?, hc] at he'
    cases he'
    exact Text.outer_compose_some ihe.balanced iht.balanced ihf.balanced

/-- **Outside of all parentheses an assembled expression has products and conjunctions, and a disjunction iff one is
exposed.** Between two such expressions any operator has beside it products and conjunctions, and a disjunction only
if an operand exposes one. -/
theorem outside_of_assembled (h : e.Assembled exposed) (h' : e'.Assembled exposed') :
    (Text.Balanced e.text.toList ∧ (∀ op : BinaryOperator, op.Outside e.text → op = .mul ∨ op = .and ∨ op = .or) ∧
      (BinaryOperator.or.Outside e.text ↔ exposed = true)) ∧
    ∀ op op' : BinaryOperator, op'.Outside (e.text ++ " " ++ op.sign ++ " " ++ e'.text) →
      op' = op ∨ op' = .mul ∨ op' = .and ∨ (op' = .or ∧ (exposed = true ∨ exposed' = true)) := by
  have houter := h.outer
  refine ⟨⟨houter.balanced, fun op hop => ?_, houter.mem_words_or_iff⟩, fun op op' hop => ?_⟩
  · rcases houter.weakest op hop with hlink | ⟨hor, -⟩
    · exact (BinaryOperator.eq_mul_or_and_of_isLink hlink).imp_right .inl
    · exact .inr (.inr hor)
  · have htext : (e.text ++ " " ++ op.sign ++ " " ++ e'.text).toList = Text.joined op e.text.toList e'.text.toList := by
      simp [Text.joined]
    rw [BinaryOperator.Outside, htext] at hop
    rcases houter.weakest_joined h'.outer hop with heq | hlink | ⟨hor, hexposed⟩
    · exact .inl heq
    · exact .inr ((BinaryOperator.eq_mul_or_and_of_isLink hlink).imp_right .inl)
    · exact .inr (.inr (.inr ⟨hor, Bool.or_eq_true_iff.1 hexposed⟩))

/-- A cell of a matrix and a sum, multiplied. -/
def coveredSample : Expression := .binary .mul (.leaf "a[4]") (.binary .add (.leaf "x") (.ofInt (-1)))

/-- A conditional over names, with two branches. -/
def branchesSample : Expression := .leaf (Demand.compose "x" "y" (some "z"))

theorem isAtom_samples : IsAtom "a[4]" ∧ IsAtom "x" ∧ IsAtom "y" ∧ IsAtom "z" := by
  refine ⟨?_, ?_, ?_, ?_⟩ <;> exact Text.Worded.atom (by decide)

theorem assembled_coveredSample : coveredSample.Assembled false :=
  .binary .mul (.name isAtom_samples.1) (.binary .add (.name isAtom_samples.2.1) (.integer _))

theorem assembled_branchesSample : branchesSample.Assembled true := by
  obtain ⟨-, hx, hy, hz⟩ := isAtom_samples
  have hdemand : (Constraint.ifThenElse (.leaf "x") (.leaf "y") (.leaf "z")).demand =
      ((Constraint.ifThenElse (.leaf "x") (.leaf "y") (.leaf "z")).withKind .integer).demand := rfl
  exact .ifThenElse (.name hx) (.name hy) (.name hz) hdemand rfl

theorem outside_of_assembled_samples :
    (coveredSample.Assembled false ∧ branchesSample.Assembled true) ∧
    coveredSample.text = "a[4] * (x + -1)" ∧
    ¬ BinaryOperator.or.Outside coveredSample.text ∧ BinaryOperator.or.Outside branchesSample.text ∧
    ∀ op : BinaryOperator, op.Outside (coveredSample.text ++ " " ++ "+" ++ " " ++ coveredSample.text) →
      op = .add ∨ op = .mul ∨ op = .and := by
  have hcovered := outside_of_assembled assembled_coveredSample assembled_coveredSample
  have hbranches := outside_of_assembled assembled_branchesSample assembled_coveredSample
  refine ⟨⟨assembled_coveredSample, assembled_branchesSample⟩, by decide +kernel, ?_, hbranches.1.2.2.2 rfl, ?_⟩
  · exact fun h => absurd (hcovered.1.2.2.1 h) (by decide)
  · intro op h
    rcases hcovered.2 .add op h with heq | hmul | hand | ⟨-, hfalse⟩
    · exact .inl heq
    · exact .inr (.inl hmul)
    · exact .inr (.inr hand)
    · simp at hfalse

/-- A conditional over names has its disjunction outside of all parentheses. -/
theorem or_outside_branchesSample :
    branchesSample.text = "(x & y) | (!(x) & z)" ∧ BinaryOperator.or.Outside branchesSample.text ∧
    ¬ ∀ e exposed, Assembled e exposed →
      Text.Balanced e.text.toList ∧ ∀ op : BinaryOperator, op.Outside e.text → op = .mul ∨ op = .and := by
  have hor : BinaryOperator.or.Outside branchesSample.text := by decide +kernel
  refine ⟨by decide +kernel, hor, fun hall => ?_⟩
  rcases (hall _ _ assembled_branchesSample).2 .or hor with h | h <;> cases h

end Expression

end SolverClient
