import SolverClient.Expression
import SolverClient.Proofs.Text.Words

/-!
# Expressions as chains

A product and a conjunction set no parentheses, so that a nest of them is read as a chain: operands with a sign
between neighbours (`Chain`). The text of an expression is that of its chain (`Expression.toList_text`), whose words
are the signs and operands, where a negation has a word for its factor, for the sign and for what is negated. Up to
the first sign that links nothing, the words determine the operands (`Chain.words_cancel`); hence the text of an
expression whose leaves are plain determines its chain (`Expression.text_eq_iff_chain`).
-/

namespace SolverClient

/-- The operator links the operands of a chain. -/
def BinaryOperator.isLink : BinaryOperator → Bool
  | mul => true
  | and => true
  | _ => false

namespace BinaryOperator

variable {op op' : BinaryOperator}

/-- The operators that link are those without parentheses. -/
theorem enclosure_eq_bare_iff : op.enclosure = .bare ↔ op.isLink = true := by
  cases op <;> simp [enclosure, isLink]

theorem isLink_eq_false_iff : op.isLink = false ↔ op.enclosure ≠ .bare := by
  rw [ne_eq, enclosure_eq_bare_iff, Bool.not_eq_true]

theorem eq_mul_or_and_of_isLink (h : op.isLink = true) : op = .mul ∨ op = .and := by
  cases op <;> simp_all [isLink]

theorem sign_injective (h : op.sign.toList = op'.sign.toList) : op = op' := by
  revert h
  cases op <;> cases op' <;> decide

theorem plain_sign (op : BinaryOperator) : Text.Plain op.sign.toList := by
  cases op <;> decide

end BinaryOperator

/-- What stands before the first parenthesis that an operator of one operand sets. -/
def UnaryOperator.name : UnaryOperator → List Char
  | abs => ['a', 'b', 's']
  | not => ['!']
  | neg => []

namespace UnaryOperator

variable {op op' : UnaryOperator}

theorem name_injective (h : op.name = op'.name) : op = op' := by
  revert h
  cases op <;> cases op' <;> decide

end UnaryOperator

mutual

/-- What stands between the signs of a chain. -/
inductive Operand where
  | leaf (text : String)
  | unary (op : UnaryOperator) (operand : Chain)
  | enclosed (op : BinaryOperator) (h : op.isLink = false) (left right : Chain)

/-- Operands, with a linking operator between neighbours. -/
inductive Chain where
  | last (operand : Operand)
  | link (operand : Operand) (op : BinaryOperator) (h : op.isLink = true) (rest : Chain)

end

namespace Chain

/-- One chain after another one, linked by an operator. -/
def append : Chain → (op : BinaryOperator) → op.isLink = true → Chain → Chain
  | last o, op, h, c => link o op h c
  | link o op' h' rest, op, h, c => link o op' h' (rest.append op h c)

theorem append_assoc (c : Chain) {op op' : BinaryOperator} (h : op.isLink = true) (h' : op'.isLink = true)
    (c' c'' : Chain) : (c.append op h c').append op' h' c'' = c.append op h (c'.append op' h' c'') := by
  match c with
  | last o => rfl
  | link o _ _ rest => simp only [append, append_assoc rest]

end Chain

/-- The chain of an expression: its nests of products and conjunctions, each as the sequence of what they link. -/
def Expression.chain : Expression → Chain
  | leaf s => .last (.leaf s)
  | unary op e => .last (.unary op e.chain)
  | binary op l r =>
    if h : op.isLink = true then l.chain.append op h r.chain
    else .last (.enclosed op (by simpa using h) l.chain r.chain)

/-! ## The words of a chain -/

/-- The words inside of the parentheses of an operator, from those of its operands. -/
def BinaryOperator.innerWords (op : BinaryOperator) (left right : List (List Char)) : List (List Char) :=
  match op.enclosure with
  | .parts => [Text.enclose [] (Text.spaced left), op.sign.toList, Text.enclose [] (Text.spaced right)]
  | _ => left ++ op.sign.toList :: right

mutual

/-- The words of an operand; a negation has three. -/
def Operand.words : Operand → List (List Char)
  | .leaf s => [s.toList]
  | .unary .abs c => [Text.enclose UnaryOperator.abs.name (Text.spaced c.words)]
  | .unary .not c => [Text.enclose UnaryOperator.not.name (Text.spaced c.words)]
  | .unary .neg c =>
    [Text.enclose UnaryOperator.neg.name ['-', '1'], BinaryOperator.mul.sign.toList,
      Text.enclose [] (Text.spaced c.words)]
  | .enclosed op _ l r => [Text.enclose [] (Text.spaced (op.innerWords l.words r.words))]

/-- The words of a chain: those of its operands, and the signs. -/
def Chain.words : Chain → List (List Char)
  | .last o => o.words
  | .link o op _ rest => o.words ++ op.sign.toList :: rest.words

end

theorem Operand.words_ne_nil (o : Operand) : o.words ≠ [] := by
  cases o with
  | unary op c => cases op <;> simp [words]
  | _ => simp [words]

theorem Chain.words_ne_nil (c : Chain) : c.words ≠ [] := by
  cases c with
  | last o => exact o.words_ne_nil
  | link o op h rest => simp [words]

theorem Chain.words_append (c : Chain) {op : BinaryOperator} (h : op.isLink = true) (c' : Chain) :
    (c.append op h c').words = c.words ++ op.sign.toList :: c'.words := by
  match c with
  | last o => rfl
  | link o _ _ rest => simp [append, words, words_append rest h c']

/-- Operands under a sign, spaced out. -/
theorem Text.spaced_sign {ws ws' : List (List Char)} (h : ws ≠ []) (h' : ws' ≠ []) (sign : List Char) :
    spaced (ws ++ sign :: ws') = spaced ws ++ ' ' :: (sign ++ ' ' :: spaced ws') := by
  rw [spaced_append h (List.cons_ne_nil _ _), spaced_cons sign h']

/-- **The text of an expression is that of its chain.** -/
theorem Expression.toList_text (e : Expression) : e.text.toList = Text.spaced e.chain.words := by
  induction e with
  | leaf s => simp [text, chain, Chain.words, Operand.words, Text.spaced_singleton]
  | unary op e ih =>
    cases op <;> simp [text, UnaryOperator.enclose, chain, Chain.words, Operand.words, Text.spaced_singleton, ih,
      Text.enclose, Text.spaced_cons, BinaryOperator.sign, UnaryOperator.name]
  | binary op l r ihl ihr =>
    have hspaced := Text.spaced_sign l.chain.words_ne_nil r.chain.words_ne_nil op.sign.toList
    cases henclosure : op.enclosure with
    | bare =>
      have hlink := BinaryOperator.enclosure_eq_bare_iff.1 henclosure
      simp [text, BinaryOperator.join, henclosure, chain, hlink, Chain.words_append, hspaced, ihl, ihr]
    | whole =>
      have hlink : op.isLink = false := BinaryOperator.isLink_eq_false_iff.2 (by simp [henclosure])
      simp [text, BinaryOperator.join, henclosure, chain, hlink, Chain.words, Operand.words, Text.spaced_singleton,
        BinaryOperator.innerWords, Text.enclose, hspaced, ihl, ihr]
    | parts =>
      have hlink : op.isLink = false := BinaryOperator.isLink_eq_false_iff.2 (by simp [henclosure])
      simp [text, BinaryOperator.join, henclosure, chain, hlink, Chain.words, Operand.words, Text.spaced_singleton,
        BinaryOperator.innerWords, Text.enclose, Text.spaced_cons, ihl, ihr]

/-! ## Reading the words -/

mutual

/-- All leaves of an operand are plain. -/
def Operand.Atomic : Operand → Prop
  | .leaf s => Text.Plain s.toList
  | .unary _ c => c.Atomic
  | .enclosed _ _ l r => l.Atomic ∧ r.Atomic

/-- All leaves of a chain are plain. -/
def Chain.Atomic : Chain → Prop
  | .last o => o.Atomic
  | .link o _ _ rest => o.Atomic ∧ rest.Atomic

end

/-- All leaves of an expression are plain: names and numbers without blanks and parentheses. -/
def Expression.Atomic : Expression → Prop
  | leaf s => Text.Plain s.toList
  | unary _ e => e.Atomic
  | binary _ l r => l.Atomic ∧ r.Atomic

instance Expression.decidableAtomic : (e : Expression) → Decidable e.Atomic
  | leaf s => inferInstanceAs (Decidable (Text.Plain s.toList))
  | unary _ e => decidableAtomic e
  | binary _ l r =>
    have := decidableAtomic l
    have := decidableAtomic r
    inferInstanceAs (Decidable (l.Atomic ∧ r.Atomic))

theorem Chain.Atomic.append {c c' : Chain} {op : BinaryOperator} {h : op.isLink = true} (hc : c.Atomic)
    (hc' : c'.Atomic) : (c.append op h c').Atomic := by
  match c with
  | .last o => exact ⟨hc, hc'⟩
  | .link o _ _ rest => exact ⟨hc.1, hc.2.append hc'⟩

theorem Expression.Atomic.chain {e : Expression} (h : e.Atomic) : e.chain.Atomic := by
  induction e with
  | leaf s => exact h
  | unary op e ih => exact ih h
  | binary op l r ihl ihr =>
    unfold Expression.chain
    split
    · exact (ihl h.1).append (ihr h.2)
    · exact ⟨ihl h.1, ihr h.2⟩

theorem BinaryOperator.solid_innerWords {op : BinaryOperator} {ws ws' : List (List Char)}
    (h : ∀ w ∈ ws, Text.Solid w) (h' : ∀ w ∈ ws', Text.Solid w) : ∀ w ∈ op.innerWords ws ws', Text.Solid w := by
  have hsign := op.plain_sign.solid
  have hleft := Text.Solid.enclose Text.plain_nil (Text.balanced_spaced h)
  have hright := Text.Solid.enclose Text.plain_nil (Text.balanced_spaced h')
  unfold innerWords
  split
  · exact List.forall_mem_cons.2 ⟨hleft, List.forall_mem_cons.2 ⟨hsign, List.forall_mem_singleton.2 hright⟩⟩
  · exact List.forall_mem_append.2 ⟨h, List.forall_mem_cons.2 ⟨hsign, h'⟩⟩

mutual

theorem Operand.solid_words (o : Operand) (h : o.Atomic) : ∀ w ∈ o.words, Text.Solid w := by
  match o with
  | .leaf s => exact List.forall_mem_singleton.2 (Text.Plain.solid h)
  | .unary op c =>
    have hc := Text.balanced_spaced (c.solid_words h)
    cases op with
    | neg =>
      have hfactor : Text.Solid (Text.enclose UnaryOperator.neg.name ['-', '1']) :=
        .enclose (by decide) (Text.Plain.balanced (by decide))
      have hsign := BinaryOperator.mul.plain_sign.solid
      exact List.forall_mem_cons.2 ⟨hfactor, List.forall_mem_cons.2 ⟨hsign,
        List.forall_mem_singleton.2 (.enclose (by decide) hc)⟩⟩
    | _ => exact List.forall_mem_singleton.2 (.enclose (by decide) hc)
  | .enclosed op _ l r =>
    have hinner := op.solid_innerWords (l.solid_words h.1) (r.solid_words h.2)
    exact List.forall_mem_singleton.2 (.enclose (by decide) (Text.balanced_spaced hinner))

theorem Chain.solid_words (c : Chain) (h : c.Atomic) : ∀ w ∈ c.words, Text.Solid w := by
  match c with
  | .last o => exact o.solid_words h
  | .link o op _ rest =>
    have hrest := List.forall_mem_cons.2 ⟨op.plain_sign.solid, rest.solid_words h.2⟩
    exact List.forall_mem_append.2 ⟨o.solid_words h.1, hrest⟩

end

theorem Chain.spaced_inj {c c' : Chain} (h : c.Atomic) (h' : c'.Atomic) :
    Text.spaced c.words = Text.spaced c'.words ↔ c.words = c'.words :=
  Text.spaced_inj c.words_ne_nil c'.words_ne_nil (c.solid_words h) (c'.solid_words h')

/-- The words do not go on with a sign that links. -/
def Stops (ws : List (List Char)) : Prop := ∀ op : BinaryOperator, op.isLink = true → ws.head? ≠ some op.sign.toList

theorem stops_nil : Stops [] := fun _ _ h => by cases h

theorem stops_sign {op : BinaryOperator} (h : op.isLink = false) (ws : List (List Char)) :
    Stops (op.sign.toList :: ws) := by
  intro op' h' heq
  have hop := BinaryOperator.sign_injective (Option.some.inj heq)
  rw [hop, h'] at h
  cases h

/-- Two chains are the same if their words are up to where the chains stop. -/
def Chain.Cancels (c c' : Chain) : Prop :=
  ∀ ws ws', Stops ws → Stops ws' → c.words ++ ws = c'.words ++ ws' → c = c' ∧ ws = ws'

theorem Chain.Cancels.eq_of_words {c c' : Chain} (hcancel : c.Cancels c') (h : c.words = c'.words) : c = c' :=
  (hcancel [] [] stops_nil stops_nil (by rw [h])).1

theorem Chain.Cancels.eq_of_spaced {c c' : Chain} (hcancel : c.Cancels c') (hc : c.Atomic) (hc' : c'.Atomic)
    (h : Text.spaced c.words = Text.spaced c'.words) : c = c' :=
  hcancel.eq_of_words ((Chain.spaced_inj hc hc').1 h)

/-! ### Inside of the parentheses of an operator -/

namespace BinaryOperator

variable {op op' : BinaryOperator} {ws ws' vs vs' : List (List Char)}

theorem innerWords_of_parts (h : op.enclosure = .parts) : op.innerWords ws ws' =
    [Text.enclose [] (Text.spaced ws), op.sign.toList, Text.enclose [] (Text.spaced ws')] := by
  simp [innerWords, h]

theorem innerWords_of_whole (h : op.enclosure = .whole) : op.innerWords ws ws' = ws ++ op.sign.toList :: ws' := by
  simp [innerWords, h]

/-- There are no fewer than three words. -/
theorem two_lt_length_innerWords (h : ws ≠ []) (h' : ws' ≠ []) : 2 < (op.innerWords ws ws').length := by
  have hws := List.length_pos_iff.2 h
  have hws' := List.length_pos_iff.2 h'
  unfold innerWords
  split
  · simp
  · rw [List.length_append, List.length_cons]
    omega

/-- Operators that enclose the whole and operators that enclose the operands as well have different words: of three
words the second is the sign in either case. -/
theorem innerWords_ne (hwhole : op.enclosure = .whole) (hparts : op'.enclosure = .parts) (h : ws ≠ []) (h' : ws' ≠ []) :
    op.innerWords ws ws' ≠ op'.innerWords vs vs' := by
  rw [innerWords_of_whole hwhole, innerWords_of_parts hparts]
  intro heq
  have hlength := congrArg List.length heq
  have hws := List.length_pos_iff.2 h
  have hws' := List.length_pos_iff.2 h'
  simp only [List.length_append, List.length_cons, List.length_nil] at hlength
  obtain ⟨w, rfl⟩ := List.length_eq_one_iff.1 (show ws.length = 1 by omega)
  have hsign := (List.cons.inj (List.cons.inj heq).2).1
  rw [sign_injective hsign, hparts] at hwhole
  cases hwhole

/-- **The words inside of parentheses determine the operator and its operands.** -/
theorem eq_of_innerWords {l l' r r' : Chain} (hl : l.Atomic) (hl' : l'.Atomic) (hr : r.Atomic) (hr' : r'.Atomic)
    (hop : op.isLink = false) (hop' : op'.isLink = false) (hcancel : l.Cancels l') (hcancel' : r.Cancels r')
    (h : op.innerWords l.words r.words = op'.innerWords l'.words r'.words) : op = op' ∧ l = l' ∧ r = r' := by
  cases henclosure : op.enclosure with
  | bare => exact absurd henclosure (isLink_eq_false_iff.1 hop)
  | whole =>
    cases henclosure' : op'.enclosure with
    | bare => exact absurd henclosure' (isLink_eq_false_iff.1 hop')
    | parts => exact absurd h (innerWords_ne henclosure henclosure' l.words_ne_nil r.words_ne_nil)
    | whole =>
      rw [innerWords_of_whole henclosure, innerWords_of_whole henclosure'] at h
      obtain ⟨hleft, hrest⟩ := hcancel _ _ (stops_sign hop _) (stops_sign hop' _) h
      obtain ⟨hsign, hright⟩ := List.cons.inj hrest
      exact ⟨sign_injective hsign, hleft, hcancel'.eq_of_words hright⟩
  | parts =>
    cases henclosure' : op'.enclosure with
    | bare => exact absurd henclosure' (isLink_eq_false_iff.1 hop')
    | whole => exact absurd h.symm (innerWords_ne henclosure' henclosure l'.words_ne_nil r'.words_ne_nil)
    | parts =>
      rw [innerWords_of_parts henclosure, innerWords_of_parts henclosure'] at h
      simp only [List.cons.injEq, and_true] at h
      obtain ⟨hleft, hsign, hright⟩ := h
      exact ⟨sign_injective hsign,
        hcancel.eq_of_spaced hl hl' ((Text.enclose_inj Text.plain_nil Text.plain_nil).1 hleft).2,
        hcancel'.eq_of_spaced hr hr' ((Text.enclose_inj Text.plain_nil Text.plain_nil).1 hright).2⟩

end BinaryOperator

/-! ### The first word of an operand -/

/-- What the first word of an operand shows: a plain text, or the words inside of parentheses and the name in front. -/
inductive Opening where
  | plain (s : List Char)
  | parenthesis (name : List Char) (inner : List (List Char))

namespace Opening

def word : Opening → List Char
  | plain s => s
  | parenthesis name inner => Text.enclose name (Text.spaced inner)

def Readable : Opening → Prop
  | plain s => Text.Plain s
  | parenthesis name inner => Text.Plain name ∧ inner ≠ [] ∧ ∀ w ∈ inner, Text.Solid w

theorem eq_of_word {p p' : Opening} (h : p.Readable) (h' : p'.Readable) (hword : p.word = p'.word) : p = p' := by
  cases p with
  | plain s =>
    cases p' with
    | plain s' => exact congrArg plain hword
    | parenthesis name inner => exact absurd hword (Text.Plain.ne_enclose h _ _)
  | parenthesis name inner =>
    cases p' with
    | plain s => exact absurd hword.symm (Text.Plain.ne_enclose h' _ _)
    | parenthesis name' inner' =>
      obtain ⟨rfl, hspaced⟩ := (Text.enclose_inj h.1 h'.1).1 hword
      rw [(Text.spaced_inj h.2.1 h'.2.1 h.2.2 h'.2.2).1 hspaced]

end Opening

namespace Operand

def opening : Operand → Opening
  | leaf s => .plain s.toList
  | unary .neg _ => .parenthesis UnaryOperator.neg.name [['-', '1']]
  | unary op c => .parenthesis op.name c.words
  | enclosed op _ l r => .parenthesis [] (op.innerWords l.words r.words)

theorem exists_words (o : Operand) : ∃ rest, o.words = o.opening.word :: rest := by
  cases o with
  | unary op c => cases op <;> exact ⟨_, rfl⟩
  | _ => exact ⟨_, rfl⟩

theorem readable_opening {o : Operand} (h : o.Atomic) : o.opening.Readable := by
  cases o with
  | leaf s => exact h
  | unary op c =>
    cases op with
    | neg => exact ⟨by decide, by simp, fun w hw => by rw [List.mem_singleton.1 hw]; exact Text.Plain.solid (by decide)⟩
    | _ => exact ⟨by decide, c.words_ne_nil, c.solid_words h⟩
  | enclosed op _ l r =>
    have hlength := op.two_lt_length_innerWords l.words_ne_nil r.words_ne_nil
    refine ⟨by decide, fun hnil => ?_, op.solid_innerWords (l.solid_words h.1) (r.solid_words h.2)⟩
    rw [hnil] at hlength
    cases hlength

theorem opening_eq_of_words {o o' : Operand} {ws ws' : List (List Char)} (h : o.Atomic) (h' : o'.Atomic)
    (hwords : o.words ++ ws = o'.words ++ ws') : o.opening = o'.opening := by
  obtain ⟨rest, hrest⟩ := o.exists_words
  obtain ⟨rest', hrest'⟩ := o'.exists_words
  rw [hrest, hrest'] at hwords
  exact Opening.eq_of_word (readable_opening h) (readable_opening h') (List.cons.inj hwords).1

variable {op op' : UnaryOperator} {c c' : Chain}

theorem exists_opening_unary (op : UnaryOperator) (c : Chain) :
    ∃ inner, (unary op c).opening = .parenthesis op.name inner := by
  cases op <;> exact ⟨_, rfl⟩

theorem eq_of_opening_unary (h : (unary op c).opening = (unary op' c').opening) : op = op' := by
  obtain ⟨inner, hinner⟩ := exists_opening_unary op c
  obtain ⟨inner', hinner'⟩ := exists_opening_unary op' c'
  rw [hinner, hinner'] at h
  exact UnaryOperator.name_injective (Opening.parenthesis.inj h).1

/-- No operand of one operator is read as one of two: what is in the parentheses of a negative number is one word. -/
theorem opening_unary_ne {op' : BinaryOperator} {hop : op'.isLink = false} {l r : Chain} :
    (unary op c).opening ≠ (enclosed op' hop l r).opening := by
  intro h
  cases op with
  | neg =>
    have hlength := op'.two_lt_length_innerWords l.words_ne_nil r.words_ne_nil
    rw [← (Opening.parenthesis.inj h).2] at hlength
    exact absurd hlength (by decide)
  | _ => exact absurd (Opening.parenthesis.inj h).1 (by decide)

end Operand

/-! ### Unique reading -/

mutual

/-- An operand is determined by the words that begin with it. -/
theorem Operand.words_cancel (o o' : Operand) (h : o.Atomic) (h' : o'.Atomic) (ws ws' : List (List Char))
    (hwords : o.words ++ ws = o'.words ++ ws') : o = o' ∧ ws = ws' := by
  have hopening := Operand.opening_eq_of_words h h' hwords
  match o, o' with
  | .leaf s, .leaf s' =>
    obtain rfl := String.toList_inj.1 (Opening.plain.inj hopening)
    exact ⟨rfl, (List.cons.inj hwords).2⟩
  | .leaf s, .unary op' c' =>
    obtain ⟨inner, hinner⟩ := Operand.exists_opening_unary op' c'
    rw [hinner] at hopening
    cases hopening
  | .leaf s, .enclosed op' hop' l' r' => cases hopening
  | .unary op c, .leaf s' =>
    obtain ⟨inner, hinner⟩ := Operand.exists_opening_unary op c
    rw [hinner] at hopening
    cases hopening
  | .unary op c, .unary op' c' =>
    have hcancel := Chain.words_cancel c c' h h'
    obtain rfl := Operand.eq_of_opening_unary hopening
    cases op with
    | neg =>
      obtain ⟨-, -, hwords⟩ := by simpa only [Operand.words, List.cons_append, List.cons.injEq] using hwords
      have hspaced := (Text.enclose_inj (by decide) (by decide)).1 hwords.1
      exact ⟨by rw [hcancel.eq_of_spaced h h' hspaced.2], hwords.2⟩
    | _ =>
      have hinner := (Opening.parenthesis.inj hopening).2
      exact ⟨by rw [hcancel.eq_of_words hinner], (List.cons.inj hwords).2⟩
  | .unary op c, .enclosed op' hop' l' r' => exact absurd hopening Operand.opening_unary_ne
  | .enclosed op hop l r, .leaf s' => cases hopening
  | .enclosed op hop l r, .unary op' c' => exact absurd hopening.symm Operand.opening_unary_ne
  | .enclosed op hop l r, .enclosed op' hop' l' r' =>
    have hinner := (Opening.parenthesis.inj hopening).2
    obtain ⟨rfl, rfl, rfl⟩ := BinaryOperator.eq_of_innerWords h.1 h'.1 h.2 h'.2 hop hop'
      (Chain.words_cancel l l' h.1 h'.1) (Chain.words_cancel r r' h.2 h'.2) hinner
    exact ⟨rfl, (List.cons.inj hwords).2⟩

/-- **A chain is determined by the words that begin with it**, up to where it stops. -/
theorem Chain.words_cancel (c c' : Chain) (h : c.Atomic) (h' : c'.Atomic) : c.Cancels c' := by
  intro ws ws' hstops hstops' hwords
  match c, c' with
  | .last o, .last o' =>
    obtain ⟨rfl, hrest⟩ := Operand.words_cancel o o' h h' ws ws' hwords
    exact ⟨rfl, hrest⟩
  -- A chain that goes on does so with a sign that links, where the words after the other one do not.
  | .last o, .link o' op' hop' rest' =>
    simp only [Chain.words, List.append_assoc] at hwords
    obtain ⟨-, hrest⟩ := Operand.words_cancel o o' h h'.1 _ _ hwords
    exact absurd (by rw [hrest]; rfl) (hstops op' hop')
  | .link o op hop rest, .last o' =>
    simp only [Chain.words, List.append_assoc] at hwords
    obtain ⟨-, hrest⟩ := Operand.words_cancel o o' h.1 h' _ _ hwords
    exact absurd (by rw [← hrest]; rfl) (hstops' op hop)
  | .link o op hop rest, .link o' op' hop' rest' =>
    simp only [Chain.words, List.append_assoc] at hwords
    obtain ⟨rfl, hlinked⟩ := Operand.words_cancel o o' h.1 h'.1 _ _ hwords
    obtain ⟨hsign, hrest⟩ := List.cons.inj hlinked
    obtain rfl := BinaryOperator.sign_injective hsign
    obtain ⟨rfl, hws⟩ := Chain.words_cancel rest rest' h.2 h'.2 ws ws' hstops hstops' hrest
    exact ⟨rfl, hws⟩

end

/-- **The text of an expression determines its chain**, if the leaves are plain. -/
theorem Expression.text_eq_iff_chain {e e' : Expression} (h : e.Atomic) (h' : e'.Atomic) :
    e.text = e'.text ↔ e.chain = e'.chain := by
  rw [← String.toList_inj, e.toList_text, e'.toList_text, Chain.spaced_inj h.chain h'.chain]
  exact ⟨(Chain.words_cancel e.chain e'.chain h.chain h'.chain).eq_of_words, congrArg Chain.words⟩

end SolverClient
