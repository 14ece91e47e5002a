import SolverClient.MatrixName

/-!
# Matrix names are read back

The name of a matrix determines its shape and its base, whatever characters the base holds (`MatrixName.ofText?_text`).
Hence the name under which a matrix travels is its own name at the second time of asking (`MatrixName.identifier_idem`),
and it carries the shape that was asked for (`MatrixName.ofText?_of_identifier`).
-/

namespace SolverClient

/-! ## Numerals -/

namespace Text

/-- The digits that a count is written with. -/
theorem toList_toString (n : Nat) : (toString n).toList = Nat.toDigits 10 n := by
  rw [Nat.toString_eq_repr, Nat.toList_repr]

theorem isDigit_of_mem_toDigits {c : Char} {n : Nat} (h : c ∈ Nat.toDigits 10 n) : isDigit c = true :=
  Nat.isDigit_of_mem_toDigits (by decide) (by decide) h

/-- A count is read as itself. -/
theorem readNat_toDigits {bound n : Nat} (h : n < bound) : readNat bound (Nat.toDigits 10 n) = some n := by
  have hall : (Nat.toDigits 10 n).all isDigit = true := List.all_eq_true.2 fun _ => isDigit_of_mem_toDigits
  have hvalue : digitsValue (Nat.toDigits 10 n) 0 = n := by
    have := Nat.ofDigitChars_ten_toDigits (n := n)
    rw [Nat.ofDigitChars_eq_foldl] at this
    exact this
  have hread : readDigits bound (Nat.toDigits 10 n) = some n := by
    have hne : (Nat.toDigits 10 n).isEmpty = false := by simp [Nat.toDigits_ne_nil]
    simp [readDigits, hne, hall, hvalue, h]
  cases hd : Nat.toDigits 10 n with
  | nil => exact absurd hd Nat.toDigits_ne_nil
  | cons c cs =>
    have hc : c ≠ '+' := by
      rintro rfl
      have := isDigit_of_mem_toDigits (c := '+') (n := n) (by rw [hd]; exact List.mem_cons_self)
      exact absurd this (by decide)
    rw [hd] at hread
    unfold readNat
    split
    · rename_i hcs
      exact absurd (List.cons.inj hcs).1 hc
    · exact hread

end Text

/-! ## Names -/

namespace MatrixName

/-- A count before a dollar sign is taken off. -/
theorem takeCount_toString {n : Nat} (h : n < Word.bound64) (rest : List Char) :
    takeCount ((toString n).toList ++ '$' :: rest) = some (n, rest) := by
  have hdollar : ∀ c ∈ Nat.toDigits 10 n, (c != '$') = true := by
    intro c hc
    have hd := Text.isDigit_of_mem_toDigits hc
    rw [bne_iff_ne]
    rintro rfl
    exact absurd hd (by decide)
  rw [Text.toList_toString]
  unfold takeCount
  rw [List.dropWhile_append_of_pos hdollar, List.takeWhile_append_of_pos hdollar]
  simp [Text.readNat_toDigits h]

/-- **A matrix name is read as what it was written from.** -/
theorem ofText?_text {m : MatrixName} (hr : m.rows < Word.bound64) (hc : m.cols < Word.bound64) :
    ofText? m.text = some m := by
  simp only [ofText?, text, String.toList_ofList, chars, ofChars?, List.append_assoc, List.cons_append]
  rw [if_pos (by simp [List.isPrefixOf_iff_prefix]), List.drop_left, takeCount_toString hr]
  simp only [Option.bind_eq_bind, Option.bind_some, takeCount_toString hc, String.ofList_toList]

/-- A matrix name starts with the mark. -/
theorem hasMark_text (m : MatrixName) : hasMark m.text = true := by
  simp [hasMark, text, chars, List.isPrefixOf_iff_prefix]

/-- A name without the mark is not read. -/
theorem ofText?_of_not_hasMark {name : String} (h : hasMark name = false) : ofText? name = none := by
  have hchars : mark.isPrefixOf name.toList = false := h
  simp [ofText?, ofChars?, hchars]

variable {name name' : String} {rows cols : Nat}

/-- Only a name with the mark carries a shape. -/
theorem hasMark_of_ofText? {m : MatrixName} (h : ofText? name = some m) : hasMark name = true := by
  cases hm : hasMark name with
  | true => rfl
  | false =>
    rw [ofText?_of_not_hasMark hm] at h
    cases h

/-- **The name under which a matrix travels** is written from a name without the mark, and is a name that carries its
shape itself. -/
theorem identifier_eq_ok : identifier name rows cols = .ok name' ↔
    (hasMark name = false ∧ name' = text ⟨rows, cols, name⟩) ∨
      (name' = name ∧ ∃ base, ofText? name = some ⟨rows, cols, base⟩) := by
  unfold identifier
  cases hm : hasMark name with
  | false => simp [ofText?_of_not_hasMark hm, eq_comm]
  | true =>
    cases ho : ofText? name with
    | none => simp
    | some m =>
      obtain ⟨r, c, base⟩ := m
      by_cases hrc : r = rows ∧ c = cols
      · simp [hrc, eq_comm]
      · simp [hrc]

/-- The name under which a matrix travels carries its shape. -/
theorem ofText?_of_identifier (hr : rows < Word.bound64) (hc : cols < Word.bound64)
    (h : identifier name rows cols = .ok name') :
    hasMark name' = true ∧ ∃ base, ofText? name' = some ⟨rows, cols, base⟩ := by
  rcases identifier_eq_ok.1 h with ⟨-, rfl⟩ | ⟨rfl, base, ho⟩
  · exact ⟨hasMark_text _, name, ofText?_text hr hc⟩
  · exact ⟨hasMark_of_ofText? ho, base, ho⟩

/-- A name that carries a shape is kept for that shape. -/
theorem identifier_of_ofText? {base : String} (hm : hasMark name = true) (h : ofText? name = some ⟨rows, cols, base⟩) :
    identifier name rows cols = .ok name := by
  simp [identifier, hm, h]

/-- It is refused for any other shape. -/
theorem identifier_of_ofText?_ne {rows' cols' : Nat} {base : String} (hm : hasMark name = true)
    (h : ofText? name = some ⟨rows, cols, base⟩) (hne : (rows', cols') ≠ (rows, cols)) :
    identifier name rows' cols' = .error (.request (.shapeMismatch name rows cols rows' cols')) := by
  have hshape : ¬ (rows = rows' ∧ cols = cols') := fun ⟨hr, hc⟩ => hne (by rw [hr, hc])
  simp only [identifier, hm, h, if_pos, if_neg hshape]

/-- A name with the mark is not empty. -/
theorem ne_empty_of_hasMark (h : hasMark name = true) : name ≠ "" := by
  rintro rfl
  exact absurd h (by decide)

/-- The name under which a matrix travels is kept. -/
theorem identifier_idem (hr : rows < Word.bound64) (hc : cols < Word.bound64)
    (h : identifier name rows cols = .ok name') : identifier name' rows cols = .ok name' := by
  obtain ⟨hm, base, ho⟩ := ofText?_of_identifier hr hc h
  exact identifier_of_ofText? hm ho

end MatrixName

end SolverClient
