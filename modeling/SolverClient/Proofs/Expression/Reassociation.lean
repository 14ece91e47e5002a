import SolverClient.Proofs.Expression.Chain

/-!
# Expressions of one text

Two expressions with plain leaves have the same text iff they have the same chain (`Expression.text_eq_iff`). What the
text does not show is thus how a nest of products and conjunctions was put together. Where no conjunction is an
operand of a product (`Expression.Separated`), that is no more than the association of products among themselves and
of conjunctions among themselves (`Expression.Reassociated`): such an expression is reassociated with the tree that
groups its chain by conjunctions first (`Expression.Separated.reassociated_tree`).
-/

namespace SolverClient

/-! ## Trees of chains -/

mutual

/-- The expression of an operand. -/
def Operand.tree : Operand → Expression
  | .leaf s => .leaf s
  | .unary op c => .unary op (c.treeAfter id)
  | .enclosed op _ l r => .binary op (l.treeAfter id) (r.treeAfter id)

/-- The expression of a chain, where `f` adds the factors that come before its first product. -/
def Chain.treeAfter : Chain → (f : Expression → Expression) → Expression
  | .last o, f => f o.tree
  | .link o .mul _ rest, f => rest.treeAfter fun e => f (.binary .mul o.tree e)
  | .link o op _ rest, f => .binary op (f o.tree) (rest.treeAfter id)

end

/-- The expression of a chain as a conjunction of products, each associated to the right. -/
def Chain.tree (c : Chain) : Expression := c.treeAfter id

/-- All links of a chain are products. -/
def Chain.IsProduct : Chain → Prop
  | last _ => True
  | link _ op _ rest => op = .mul ∧ rest.IsProduct

theorem Chain.treeAfter_of_isProduct {c : Chain} (h : c.IsProduct) (f : Expression → Expression) :
    c.treeAfter f = f c.tree := by
  match c with
  | .last o => rfl
  | .link o op _ rest =>
    obtain ⟨rfl, hrest⟩ := h
    simp only [tree, treeAfter]
    rw [treeAfter_of_isProduct hrest, treeAfter_of_isProduct hrest]
    rfl

theorem Chain.IsProduct.append {c c' : Chain} (h : c.IsProduct) (h' : c'.IsProduct) :
    (c.append .mul rfl c').IsProduct := by
  match c with
  | .last o => exact ⟨rfl, h'⟩
  | .link o _ _ rest => exact ⟨h.1, h.2.append h'⟩

/-! ## Reassociation -/

namespace Expression

/-- The expressions differ in how products are associated among themselves, and conjunctions among themselves. -/
inductive Reassociated : Expression → Expression → Prop
  | refl (e : Expression) : Reassociated e e
  | symm {e e' : Expression} (h : Reassociated e e') : Reassociated e' e
  | trans {e e' e'' : Expression} (h : Reassociated e e') (h' : Reassociated e' e'') : Reassociated e e''
  | assoc {op : BinaryOperator} (h : op = .mul ∨ op = .and) (a b c : Expression) :
      Reassociated (.binary op (.binary op a b) c) (.binary op a (.binary op b c))
  | unary (op : UnaryOperator) {e e' : Expression} (h : Reassociated e e') : Reassociated (.unary op e) (.unary op e')
  | binary (op : BinaryOperator) {l l' r r' : Expression} (hl : Reassociated l l') (hr : Reassociated r r') :
      Reassociated (.binary op l r) (.binary op l' r')

/-- A conjunction. -/
def isConjunction : Expression → Bool
  | binary .and _ _ => true
  | _ => false

/-- No conjunction is an operand of a product. -/
def Separated : Expression → Prop
  | leaf _ => True
  | unary _ e => e.Separated
  | binary op l r =>
    l.Separated ∧ r.Separated ∧ (op = .mul → l.isConjunction = false ∧ r.isConjunction = false)

instance decidableSeparated : (e : Expression) → Decidable e.Separated
  | leaf _ => .isTrue trivial
  | unary _ e => decidableSeparated e
  | binary op l r =>
    have := decidableSeparated l
    have := decidableSeparated r
    inferInstanceAs (Decidable (l.Separated ∧ r.Separated ∧ (op = .mul → _)))

variable {e e' : Expression}

/-- Reassociated expressions have the same chain. -/
theorem Reassociated.chain_eq (h : Reassociated e e') : e.chain = e'.chain := by
  induction h with
  | refl e => rfl
  | symm _ ih => exact ih.symm
  | trans _ _ ih ih' => exact ih.trans ih'
  | assoc h a b c =>
    rcases h with rfl | rfl <;> simp [chain, BinaryOperator.isLink, Chain.append_assoc]
  | unary op _ ih => simp [chain, ih]
  | binary op _ _ ihl ihr => simp [chain, ihl, ihr]

/-- A conjunction of two chains. The factors before the first chain stay with its first product. -/
theorem reassociated_append_and (c c' : Chain) (f : Expression → Expression) :
    Reassociated ((c.append .and rfl c').treeAfter f) (.binary .and (c.treeAfter f) c'.tree) := by
  match c with
  | .last o => exact .refl _
  | .link o op hop rest =>
    rcases BinaryOperator.eq_mul_or_and_of_isLink hop with rfl | rfl
    · exact reassociated_append_and rest c' _
    · exact (Reassociated.binary .and (.refl _) (reassociated_append_and rest c' id)).trans
        (.symm (.assoc (.inr rfl) _ _ _))

/-- A product of two chains of products. -/
theorem reassociated_append_mul {c c' : Chain} (h : c.IsProduct) (h' : c'.IsProduct) :
    Reassociated (c.append .mul rfl c').tree (.binary .mul c.tree c'.tree) := by
  match c with
  | .last o =>
    have heq : (Chain.append (.last o) .mul rfl c').tree = .binary .mul o.tree c'.tree :=
      Chain.treeAfter_of_isProduct h' _
    rw [heq]
    exact .refl _
  | .link o op _ rest =>
    obtain ⟨rfl, hrest⟩ := h
    have heq : (Chain.append (.link o .mul rfl rest) .mul rfl c').tree =
        .binary .mul o.tree (rest.append .mul rfl c').tree := Chain.treeAfter_of_isProduct (hrest.append h') _
    have heq' : (Chain.link o .mul rfl rest).tree = .binary .mul o.tree rest.tree :=
      Chain.treeAfter_of_isProduct hrest _
    rw [heq, heq']
    exact (Reassociated.binary .mul (.refl _) (reassociated_append_mul hrest h')).trans
      (.symm (.assoc (.inl rfl) _ _ _))

namespace Separated

/-- What is not a conjunction has a chain of products. -/
theorem isProduct_chain (h : e.Separated) (hc : e.isConjunction = false) : e.chain.IsProduct := by
  induction e with
  | leaf s => trivial
  | unary op e _ => trivial
  | binary op l r ihl ihr =>
    obtain ⟨hl, hr, hoperands⟩ := h
    unfold chain
    split
    · rename_i hop
      rcases BinaryOperator.eq_mul_or_and_of_isLink hop with rfl | rfl
      · obtain ⟨hcl, hcr⟩ := hoperands rfl
        exact (ihl hl hcl).append (ihr hr hcr)
      · cases hc
    · trivial

/-- **A separated expression is the tree of its chain**, but for association. -/
theorem reassociated_tree (h : e.Separated) : Reassociated e e.chain.tree := by
  induction e with
  | leaf s => exact .refl _
  | unary op e ih => exact .unary op (ih h)
  | binary op l r ihl ihr =>
    obtain ⟨hl, hr, hoperands⟩ := h
    have hparts := Reassociated.binary op (ihl hl) (ihr hr)
    unfold chain
    split
    · rename_i hop
      rcases BinaryOperator.eq_mul_or_and_of_isLink hop with rfl | rfl
      · obtain ⟨hcl, hcr⟩ := hoperands rfl
        exact hparts.trans (reassociated_append_mul (isProduct_chain hl hcl) (isProduct_chain hr hcr)).symm
      · exact hparts.trans (reassociated_append_and l.chain r.chain id).symm
    · exact hparts

theorem chain_eq_iff (h : e.Separated) (h' : e'.Separated) : e.chain = e'.chain ↔ Reassociated e e' := by
  refine ⟨fun heq => ?_, Reassociated.chain_eq⟩
  have htree := h'.reassociated_tree.symm
  rw [← heq] at htree
  exact h.reassociated_tree.trans htree

end Separated

/-! ## Texts -/

/-- **The text of an expression with plain leaves shows its chain and nothing more.** Hence it shows an expression
without conjunctions in products up to association. -/
theorem text_eq_iff (h : e.Atomic) (h' : e'.Atomic) : (e.text = e'.text ↔ e.chain = e'.chain) ∧
    (e.Separated → e'.Separated → (e.text = e'.text ↔ Reassociated e e')) := by
  have htext := text_eq_iff_chain h h'
  exact ⟨htext, fun hs hs' => htext.trans (hs.chain_eq_iff hs')⟩

/-- A cell, a negative number and a negation, multiplied from the left. -/
def productSample : Expression :=
  .binary .mul (.binary .mul (.leaf "a[0]") (.ofInt (-1))) (.unary .neg (.binary .sub (.leaf "b") (.ofInt 2)))

/-- The same, multiplied from the right. -/
def regroupedSample : Expression :=
  .binary .mul (.leaf "a[0]") (.binary .mul (.ofInt (-1)) (.unary .neg (.binary .sub (.leaf "b") (.ofInt 2))))

theorem text_eq_iff_regroupedSample :
    (productSample.Atomic ∧ regroupedSample.Atomic) ∧ productSample.text = "a[0] * -1 * (-1) * ((b - 2))" ∧
    productSample.text = regroupedSample.text ∧ productSample.chain = regroupedSample.chain ∧
    Reassociated productSample regroupedSample := by
  have hleft : productSample.Atomic := by decide +kernel
  have hright : regroupedSample.Atomic := by decide +kernel
  have hseparated : productSample.Separated := by decide
  have hseparated' : regroupedSample.Separated := by decide
  have htext : productSample.text = regroupedSample.text := by decide +kernel
  obtain ⟨hchain, hreassociated⟩ := text_eq_iff hleft hright
  exact ⟨⟨hleft, hright⟩, by decide +kernel, htext, hchain.1 htext, (hreassociated hseparated hseparated').1 htext⟩

/-- A conjunction in a product has the text of a product in a conjunction. -/
example : (binary .mul (.leaf "a") (.binary .and (.leaf "b") (.leaf "c"))).text =
    (binary .and (.binary .mul (.leaf "a") (.leaf "b")) (.leaf "c")).text := by decide

end Expression

end SolverClient
