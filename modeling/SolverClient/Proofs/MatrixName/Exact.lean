import Mathlib.Data.List.Basic
import SolverClient.Proofs.MatrixName

/-!
# Which texts are matrix names

A count is read from a numeral (`Text.Numeral`): digits, with a plus sign before them or without one, and with any
zeros in front. It is read from nothing else (`Text.readNat_eq_some_iff`). A text is a matrix name iff it is the mark,
numerals of two words with a dollar sign after each, and the base (`MatrixName.ofText?_eq_some_iff`). A count is written
in one way only (`Text.Numeral.toDigits_eq_iff`), so that a matrix name comes back from what it was read as iff its
numerals have neither signs nor zeros in front. All this together is `MatrixName.ofText?_exact`.
-/

namespace SolverClient

/-! ## Numerals -/

namespace Text

/-- At least one digit, and nothing else. -/
def Digits (cs : List Char) : Prop := cs ≠ [] ∧ ∀ c ∈ cs, isDigit c = true

/-- A numeral and its value. -/
inductive Numeral : List Char → Nat → Prop
  | unsigned {digits : List Char} (h : Digits digits) : Numeral digits (Nat.ofDigitChars 10 digits 0)
  | signed {digits : List Char} (h : Digits digits) : Numeral ('+' :: digits) (Nat.ofDigitChars 10 digits 0)

/-- There is neither a sign nor a zero in front of other digits. -/
def Bare (numeral : List Char) : Prop := numeral.head? ≠ some '+' ∧ (numeral.head? = some '0' → numeral = ['0'])

variable {cs digits : List Char} {c : Char} {bound n : Nat}

theorem ne_of_isDigit {d : Char} (h : isDigit c = true) (hd : isDigit d = false) : c ≠ d := by
  rintro rfl
  rw [h] at hd
  cases hd

/-- A digit is below ten, and is the digit of its value. -/
theorem digitChar_of_isDigit (h : isDigit c = true) :
    c.toNat - '0'.toNat < 10 ∧ Nat.digitChar (c.toNat - '0'.toNat) = c := by
  have hrange : 48 ≤ c.toNat ∧ c.toNat ≤ 57 := by
    simp only [isDigit, Bool.and_eq_true, decide_eq_true_eq] at h
    exact h
  have hzero : '0'.toNat = 48 := rfl
  have hlt : c.toNat - '0'.toNat < 10 := by omega
  refine ⟨hlt, Char.toNat_inj.1 ?_⟩
  rw [Nat.toNat_digitChar_of_lt_ten hlt]
  omega

/-! ### Reading -/

theorem readDigits_eq_some_iff :
    readDigits bound cs = some n ↔ Digits cs ∧ Nat.ofDigitChars 10 cs 0 = n ∧ n < bound := by
  have hvalue : digitsValue cs 0 = Nat.ofDigitChars 10 cs 0 := Nat.ofDigitChars_eq_foldl.symm
  have hdigits : (cs.isEmpty || !cs.all isDigit) = false ↔ Digits cs := by simp [Digits]
  unfold readDigits
  split
  · rename_i hno
    have hnone : ¬ Digits cs := fun h => absurd (hdigits.2 h) (by rw [hno]; decide)
    simp only [hnone, reduceCtorEq, false_and]
  · rename_i hyes
    have hcs : Digits cs := hdigits.1 (Bool.eq_false_iff.2 hyes)
    simp only [hvalue, hcs, true_and, Option.ite_none_right_eq_some, Option.some.injEq]
    constructor
    · rintro ⟨hlt, rfl⟩
      exact ⟨rfl, hlt⟩
    · rintro ⟨rfl, hlt⟩
      exact ⟨hlt, rfl⟩

/-- **A count is read from its numerals, and from nothing else.** -/
theorem readNat_eq_some_iff : readNat bound cs = some n ↔ Numeral cs n ∧ n < bound := by
  constructor
  · intro h
    unfold readNat at h
    split at h
    · obtain ⟨hdigits, rfl, hlt⟩ := readDigits_eq_some_iff.1 h
      exact ⟨.signed hdigits, hlt⟩
    · obtain ⟨hdigits, rfl, hlt⟩ := readDigits_eq_some_iff.1 h
      exact ⟨.unsigned hdigits, hlt⟩
  · rintro ⟨hnumeral, hlt⟩
    cases hnumeral with
    | signed h => exact readDigits_eq_some_iff.2 ⟨h, rfl, hlt⟩
    | unsigned h =>
      unfold readNat
      split
      · rename_i rest
        exact absurd rfl (ne_of_isDigit (h.2 '+' List.mem_cons_self) (by decide))
      · exact readDigits_eq_some_iff.2 ⟨h, rfl, hlt⟩

/-- No numeral has a dollar sign. -/
theorem Numeral.ne_dollar (h : Numeral cs n) : ∀ c ∈ cs, (c != '$') = true := by
  intro c hc
  rw [bne_iff_ne]
  cases h with
  | unsigned h => exact ne_of_isDigit (h.2 c hc) (by decide)
  | signed h =>
    rcases List.mem_cons.1 hc with rfl | hc
    · decide
    · exact ne_of_isDigit (h.2 c hc) (by decide)

/-! ### Writing -/

theorem digits_toDigits (n : Nat) : Digits (Nat.toDigits 10 n) :=
  ⟨Nat.toDigits_ne_nil, fun _ => isDigit_of_mem_toDigits⟩

/-- A count is written as a numeral of it. -/
theorem numeral_toDigits (n : Nat) : Numeral (Nat.toDigits 10 n) n := by
  have h := Numeral.unsigned (digits_toDigits n)
  rwa [Nat.ofDigitChars_ten_toDigits] at h

/-- More digits after those of a count that is not zero. -/
theorem toDigits_append (hn : 0 < n) (h : ∀ c ∈ cs, isDigit c = true) :
    Nat.toDigits 10 n ++ cs = Nat.toDigits 10 (Nat.ofDigitChars 10 cs n) := by
  induction cs generalizing n with
  | nil => rw [List.append_nil, Nat.ofDigitChars_nil]
  | cons c cs ih =>
    obtain ⟨hlt, hchar⟩ := digitChar_of_isDigit (h c List.mem_cons_self)
    have hone : Nat.toDigits 10 (c.toNat - '0'.toNat) = [c] := by rw [Nat.toDigits_of_lt_base hlt, hchar]
    calc Nat.toDigits 10 n ++ c :: cs
        = Nat.toDigits 10 n ++ Nat.toDigits 10 (c.toNat - '0'.toNat) ++ cs := by rw [hone, List.append_cons]
      _ = Nat.toDigits 10 (10 * n + (c.toNat - '0'.toNat)) ++ cs := by
        rw [Nat.toDigits_append_toDigits (by decide) hn hlt]
      _ = Nat.toDigits 10 (Nat.ofDigitChars 10 (c :: cs) n) := by
        rw [ih (by omega) fun d hd => h d (List.mem_cons_of_mem c hd), Nat.ofDigitChars_cons]

/-- Digits without a zero in front are those of their value. -/
theorem Digits.toDigits_eq (h : Digits digits) (hzero : digits.head? = some '0' → digits = ['0']) :
    Nat.toDigits 10 (Nat.ofDigitChars 10 digits 0) = digits := by
  obtain ⟨hne, hall⟩ := h
  cases digits with
  | nil => exact absurd rfl hne
  | cons c cs =>
    by_cases hc : c = '0'
    · rw [hzero (by rw [List.head?_cons, hc])]
      rfl
    · obtain ⟨hlt, hchar⟩ := digitChar_of_isDigit (hall c List.mem_cons_self)
      have hpos : 0 < c.toNat - '0'.toNat := by
        refine Nat.pos_of_ne_zero fun heq => hc ?_
        rw [← hchar, heq]
        rfl
      rw [Nat.ofDigitChars_cons, Nat.mul_zero, Nat.zero_add,
        ← toDigits_append hpos fun d hd => hall d (List.mem_cons_of_mem c hd), Nat.toDigits_of_lt_base hlt, hchar,
        List.singleton_append]

/-- A count that is not zero is written without a zero in front. -/
theorem head?_toDigits_ne (hn : 0 < n) : (Nat.toDigits 10 n).head? ≠ some '0' := by
  have hdigit : ∀ d < 10, 0 < d → [Nat.digitChar d].head? ≠ some '0' := by decide
  induction n using Nat.strongRecOn with
  | _ n ih =>
    rw [Nat.toDigits_eq_if (by decide)]
    split
    · rename_i hlt
      exact hdigit n hlt hn
    · rw [List.head?_append_of_ne_nil _ Nat.toDigits_ne_nil]
      exact ih (n / 10) (by omega) (by omega)

theorem bare_toDigits (n : Nat) : Bare (Nat.toDigits 10 n) := by
  constructor
  · intro hplus
    exact ne_of_isDigit (isDigit_of_mem_toDigits (List.mem_of_head? hplus)) (by decide) rfl
  · intro hzero
    rcases Nat.eq_zero_or_pos n with rfl | hn
    · exact Nat.toDigits_zero 10
    · exact absurd hzero (head?_toDigits_ne hn)

/-- **Of all numerals of a count, the one that is written is the bare one.** -/
theorem Numeral.toDigits_eq_iff (h : Numeral cs n) : Nat.toDigits 10 n = cs ↔ Bare cs := by
  constructor
  · rintro rfl
    exact bare_toDigits n
  · rintro ⟨hplus, hzero⟩
    cases h with
    | unsigned h => exact h.toDigits_eq hzero
    | signed h => exact absurd rfl hplus

end Text

/-! ## Names -/

namespace MatrixName

/-- The text is the mark, numerals of the rows and columns with a dollar sign after each, and the base, and the counts
are words. -/
structure Spelt (s rowNumeral colNumeral : String) (m : MatrixName) : Prop where
  text : s = "MATRIX$" ++ rowNumeral ++ "$" ++ colNumeral ++ "$" ++ m.base
  rows : Text.Numeral rowNumeral.toList m.rows
  cols : Text.Numeral colNumeral.toList m.cols
  rows_lt : m.rows < Word.bound64
  cols_lt : m.cols < Word.bound64

variable {s rowNumeral colNumeral : String} {m : MatrixName} {cs rest numeral numeral' : List Char} {n : Nat}

/-- What stands before the first dollar sign. -/
theorem append_dollar_inj {rest' : List Char} (h : ∀ c ∈ numeral, (c != '$') = true)
    (h' : ∀ c ∈ numeral', (c != '$') = true) (heq : numeral ++ '$' :: rest = numeral' ++ '$' :: rest') :
    numeral = numeral' ∧ rest = rest' := by
  have htake := congrArg (List.takeWhile (· != '$')) heq
  rw [List.takeWhile_append_of_pos h, List.takeWhile_append_of_pos h'] at htake
  have hnumeral : numeral = numeral' := by simpa using htake
  subst hnumeral
  exact ⟨rfl, (List.cons.inj (List.append_cancel_left heq)).2⟩

/-- A count is taken from a numeral of a word before a dollar sign. -/
theorem takeCount_eq_some_iff :
    takeCount cs = some (n, rest) ↔ ∃ numeral, cs = numeral ++ '$' :: rest ∧ Text.Numeral numeral n ∧
      n < Word.bound64 := by
  unfold takeCount
  constructor
  · intro h
    split at h
    · cases h
    · rename_i c rest' hdrop
      obtain ⟨k, hread, hpair⟩ := Option.map_eq_some_iff.1 h
      cases hpair
      obtain ⟨hnumeral, hlt⟩ := Text.readNat_eq_some_iff.1 hread
      have hc : c = '$' := by
        have hhead := List.head?_dropWhile_not (· != '$') cs
        rw [hdrop] at hhead
        simpa using hhead
      refine ⟨cs.takeWhile (· != '$'), ?_, hnumeral, hlt⟩
      subst hc
      rw [← hdrop, List.takeWhile_append_dropWhile]
  · rintro ⟨numeral, rfl, hnumeral, hlt⟩
    rw [List.dropWhile_append_of_pos hnumeral.ne_dollar, List.takeWhile_append_of_pos hnumeral.ne_dollar]
    simp [Text.readNat_eq_some_iff.2 ⟨hnumeral, hlt⟩]

/-- The characters of a text that is spelt so. -/
theorem Spelt.toList (h : Spelt s rowNumeral colNumeral m) :
    s.toList = mark ++ (rowNumeral.toList ++ '$' :: (colNumeral.toList ++ '$' :: m.base.toList)) := by
  rw [h.text]
  simp [mark]

/-- **A text is a matrix name iff it is spelt as one.** -/
theorem ofText?_eq_some_iff : ofText? s = some m ↔ ∃ rowNumeral colNumeral, Spelt s rowNumeral colNumeral m := by
  constructor
  · intro h
    unfold ofText? ofChars? at h
    split at h
    · rename_i hmark
      obtain ⟨tail, htail⟩ := List.isPrefixOf_iff_prefix.1 hmark
      rw [← htail, List.drop_left] at h
      simp only [Option.bind_eq_bind, Option.bind_eq_some_iff, Option.some.injEq] at h
      obtain ⟨⟨rows, rest⟩, hrows, ⟨cols, base⟩, hcols, rfl⟩ := h
      obtain ⟨rowNumeral, rfl, hr, hrlt⟩ := takeCount_eq_some_iff.1 hrows
      obtain ⟨colNumeral, rfl, hc, hclt⟩ := takeCount_eq_some_iff.1 hcols
      refine ⟨String.ofList rowNumeral, String.ofList colNumeral, ?_, by simpa using hr, by simpa using hc, hrlt, hclt⟩
      apply String.toList_injective
      rw [← htail]
      simp [mark]
    · cases h
  · rintro ⟨rowNumeral, colNumeral, h⟩
    unfold ofText? ofChars?
    rw [h.toList, if_pos (by simp [List.isPrefixOf_iff_prefix]), List.drop_left,
      takeCount_eq_some_iff.2 ⟨_, rfl, h.rows, h.rows_lt⟩]
    simp [takeCount_eq_some_iff.2 ⟨_, rfl, h.cols, h.cols_lt⟩]

/-- **A matrix name is written as it was read iff its numerals are bare.** -/
theorem Spelt.text_eq_self_iff (h : Spelt s rowNumeral colNumeral m) :
    m.text = s ↔ Text.Bare rowNumeral.toList ∧ Text.Bare colNumeral.toList := by
  have hchars : m.chars =
      mark ++ (Nat.toDigits 10 m.rows ++ '$' :: (Nat.toDigits 10 m.cols ++ '$' :: m.base.toList)) := by
    simp only [chars, Text.toList_toString, List.append_assoc, List.cons_append]
  have htext : m.text = s ↔ m.chars = s.toList := by
    rw [MatrixName.text, ← String.toList_inj, String.toList_ofList]
  rw [htext, hchars, h.toList, List.append_cancel_left_eq, ← h.rows.toDigits_eq_iff, ← h.cols.toDigits_eq_iff]
  constructor
  · intro heq
    obtain ⟨hrows, hrest⟩ := append_dollar_inj (Text.numeral_toDigits m.rows).ne_dollar h.rows.ne_dollar heq
    exact ⟨hrows, (append_dollar_inj (Text.numeral_toDigits m.cols).ne_dollar h.cols.ne_dollar hrest).1⟩
  · rintro ⟨hrows, hcols⟩
    rw [hrows, hcols]

/-- **Which texts are matrix names, and of what.** A name that is written from words is read as what it was written
from. A text is read as a shape and a base iff it is spelt with numerals of the shape and with the base, it comes back
when that is written iff both numerals are bare, and a text that is not spelt so is not read at all. -/
theorem ofText?_exact :
    (∀ m : MatrixName, m.rows < Word.bound64 → m.cols < Word.bound64 → ofText? m.text = some m) ∧
    ∀ s : String,
      (∀ m, ofText? s = some m ↔ ∃ rowNumeral colNumeral, Spelt s rowNumeral colNumeral m) ∧
      (∀ m rowNumeral colNumeral, Spelt s rowNumeral colNumeral m →
        (m.text = s ↔ Text.Bare rowNumeral.toList ∧ Text.Bare colNumeral.toList)) ∧
      (ofText? s = none ↔ ∀ m rowNumeral colNumeral, ¬ Spelt s rowNumeral colNumeral m) := by
  refine ⟨fun m hr hc => ofText?_text hr hc, fun s => ?_⟩
  refine ⟨fun m => ofText?_eq_some_iff, fun m _ _ h => h.text_eq_self_iff, ?_⟩
  rw [Option.eq_none_iff_forall_ne_some]
  constructor
  · exact fun h m rowNumeral colNumeral hs => h m (ofText?_eq_some_iff.2 ⟨rowNumeral, colNumeral, hs⟩)
  · intro h m hm
    obtain ⟨rowNumeral, colNumeral, hs⟩ := ofText?_eq_some_iff.1 hm
    exact h m rowNumeral colNumeral hs

/-- A name with a sign, zeros in front and dollar signs in its base. -/
theorem spelt_signedName : Spelt "MATRIX$+2$003$MATRIX$4$" "+2" "003" ⟨2, 3, "MATRIX$4$"⟩ where
  text := by decide
  rows := @Text.Numeral.signed ['2'] ⟨List.cons_ne_nil _ _, List.all_eq_true.1 rfl⟩
  cols := @Text.Numeral.unsigned ['0', '0', '3'] ⟨List.cons_ne_nil _ _, List.all_eq_true.1 rfl⟩
  rows_lt := by decide
  cols_lt := by decide

theorem ofText?_exact_signedName :
    ofText? (text ⟨0, 18446744073709551615, "$+1$"⟩) = some ⟨0, 18446744073709551615, "$+1$"⟩ ∧
    ofText? "MATRIX$+2$003$MATRIX$4$" = some ⟨2, 3, "MATRIX$4$"⟩ ∧
    text ⟨2, 3, "MATRIX$4$"⟩ ≠ "MATRIX$+2$003$MATRIX$4$" := by
  obtain ⟨hwritten, htexts⟩ := ofText?_exact
  obtain ⟨hread, hagain, -⟩ := htexts "MATRIX$+2$003$MATRIX$4$"
  refine ⟨hwritten _ (by decide) (by decide), (hread _).2 ⟨_, _, spelt_signedName⟩, fun heq => ?_⟩
  exact ((hagain _ _ _ spelt_signedName).1 heq).1.1 rfl

end MatrixName

end SolverClient
